/-
Plain trees: the form a story is compiled from.

In a plain tree a call stands only as a statement or as the whole value of an
assignment, every mutation has one link, and no string holds code. `Hoist.story`
brings a tree into this form. A call inside a larger value is taken out: it
becomes the value of a variable, assigned right before the statement, and the
variable is read in its place. A chain of mutations becomes one assignment for
each link but the last. A string with code becomes a sum of its texts and of
its codes cast to strings, where any code but a path is taken out as well.

What is taken out of a condition would run once, before the whole construct.
An `if` may have that; the condition of a `while` or an `else if`, which may
run often or not at all, may not.
-/
import StoryLang.Hoist.Issued
import StoryLang.Hoist.Pieces
import StoryLang.Token.Scan
import StoryLang.Tree.Statement

namespace StoryLang

/-- Making a tree plain, which may issue coordinates. -/
abbrev Hoist (α : Type) : Type := StateT Issued (Except Fault) α

namespace Hoist

def fail {α : Type} (f : Fault) : Hoist α := fun _ => .error f

/-- The assignments taken out of something, in order, and what is left of it. -/
structure Out (α : Type) where
  before : List Tree
  left : α

/-- Nothing was taken out. -/
def Out.all {α : Type} (left : α) : Out α := ⟨[], left⟩

/-- Takes a value out, behind what was taken out of it. -/
def takeOut (base : Nat) (value : Out Tree) : Hoist (Out Tree) := fun issued =>
  let ((assignment, path), issued) := issued.assign base value.left
  .ok (⟨value.before ++ [assignment], path⟩, issued)

/-- The fragment without its `then`. -/
def linkParts (fragment : Tree) : List Tree :=
  fragment.parts.filter fun part => !part.asToken?.any (·.kind = .keyword .thenWord)

/-- A mutation of one link. -/
def mutationOf (subject fragment : Tree) : Tree :=
  .of .mutation [subject, .of .mutationFragment (linkParts fragment)]

/-- The first link of a longer chain. On a path it is written like a service
call: which of the two it is depends on what the path names. -/
def firstLink (subject fragment : Tree) : Tree :=
  if subject.isA .path then .of .serviceCall (subject :: linkParts fragment)
  else mutationOf subject fragment

/-- Takes out every link but the last one; `link` builds the first of them. -/
def chain (base : Nat) (link : Tree → Tree → Tree) (before : List Tree) (subject : Tree) :
    List Tree → Hoist (Out Tree)
  | [] => fail (.internal .noFragment)
  | [last] => pure ⟨before, mutationOf subject last⟩
  | fragment :: fragments => do
    let out ← takeOut base ⟨before, link subject fragment⟩
    chain base mutationOf out.before out.left fragments

/-- Refuses what was taken out of a condition. -/
def guardCondition (construct : String) (token : Token) (out : Out Tree) : Hoist (Out Tree) :=
  match out.before with
  | [] => pure out
  | call :: _ =>
    fail (.inTokens
      { code := .callInCondition, args := [construct]
        position := call.position?.getD token.position, token, expected := [] })

/-- Moves a place inside code to its place in the story, where the code starts at `start`. -/
def shift (start p : Position) : Position :=
  if p.line = 1 then ⟨start.line, start.column + p.column - 1⟩
  else ⟨start.line + p.line - 1, p.column⟩

/-- Reads the code of a string that starts at a place. -/
def readCode (m : ScanMode) (source : List Char) (start : Position) : Except Fault Tree :=
  match (scan m source).tokens with
  | .error f => .error (.inText { f with position := shift start f.position })
  | .ok tokens =>
    Tree.ofFragment m.grammar (tokens.map fun t => { t with position := shift start t.position })

/-- A value as a string. -/
def castToString (value : Tree) (place : Position) : Tree :=
  .of .cast
    [value, .token ⟨.keyword .asWord, "as", place⟩,
      .of .types [.token ⟨.name, "string", place⟩]]

/-- The sum of some values, added at a place. -/
def sum (place : Position) : Tree → List Tree → Tree
  | first, [] => first
  | first, next :: rest =>
    sum place (.of .binaryExpression [first, .token ⟨.symbol .plus, "+", place⟩, next]) rest

/-- A piece of a string as a value. `code` makes the code's tree plain. -/
def piece (m : ScanMode) (code : Tree → Hoist (Out Tree)) (t : Token) :
    Piece → Hoist (Out Tree)
  | .text raw => pure (.all (.of .string [.token ⟨.string, String.ofList raw, t.position⟩]))
  | .code source offset => do
    let start : Position := ⟨t.line, t.column + 1 + offset⟩
    match readCode m source start with
    | .error f => fail f
    | .ok tree =>
      let out ← code tree
      return ⟨out.before, castToString out.left start⟩

/-- The pieces of a string as values. -/
def pieces (m : ScanMode) (code : Tree → Hoist (Out Tree)) (t : Token) :
    List Piece → Hoist (Out (List Tree))
  | [] => pure (.all [])
  | p :: ps => do
    let first ← piece m code t p
    let rest ← pieces m code t ps
    return ⟨first.before ++ rest.before, first.left :: rest.left⟩

/-- A string without code. Any other node than one of a single token is left as it is. -/
def string (m : ScanMode) (code : Tree → Hoist (Out Tree)) (line : Option Coord)
    (parts : List Tree) : Hoist (Out Tree) :=
  match parts with
  | [.token t] =>
    if Pieces.hasCode t.literal.toList then do
      let out ← pieces m code t (Pieces.split t.literal.toList)
      match out.left with
      | [] => return ⟨out.before, .node .string line parts⟩
      | first :: rest => return ⟨out.before, sum t.position first rest⟩
    else pure (.all (.node .string line parts))
  | _ => pure (.all (.node .string line parts))

/-- Where a tree stands. -/
inductive Role where
  /-- In a list of statements. -/
  | statement
  /-- As a whole statement or the whole value of an assignment, where a call may stay. -/
  | value
  /-- Inside a larger value. -/
  | operand
  /-- A part of a node. -/
  | part
  deriving DecidableEq

/-- What is done with a node. -/
inductive Treatment where
  /-- Its parts are made plain one by one. -/
  | parts
  /-- The same, and the node is taken out. -/
  | partsOut
  /-- Its parts are made plain, the last of them in the given role if it is a node. -/
  | lastAs (role : Role)
  /-- It is a chain of mutations. -/
  | chain
  /-- The same, and the last link is taken out. -/
  | chainOut
  /-- Its parts are values, and a single call stands for the node. -/
  | values
  /-- It is a string. -/
  | string
  /-- Its parts are statements. -/
  | statements
  /-- Its condition may have nothing taken out. -/
  | guarded (construct : String)

/-- What is done with a node inside a larger value. -/
def asOperand : Rule → Treatment
  | .string => .string
  | .mutation => .chainOut
  | .serviceCall | .functionCall => .partsOut
  | _ => .parts

/-- What is done with a node where a call may stay. -/
def asValue : Rule → Treatment
  | .mutation => .chain
  | .serviceCall | .functionCall => .parts
  | .expressionStatement => .values
  | rule => asOperand rule

/-- What is done with a node, by its role. -/
def treatment : Role → Rule → Treatment
  | .statement, .assignment => .lastAs .value
  | .statement, .returnStatement | .statement, .throwStatement => .lastAs .operand
  | .statement, .whileBlock => .guarded "while"
  | .statement, .expressionStatement => .values
  | .statement, .mutation => .chain
  | .statement, _ => .parts
  | .value, rule => asValue rule
  | .operand, rule => asOperand rule
  | .part, .block => .statements
  | .part, .elifBlock => .guarded "else if"
  | .part, rule => asOperand rule

/-- The line under which coordinates are issued for a statement: the one
before it, or its own one if it was taken out itself. -/
def baseOf (statement : Tree) : Nat :=
  match statement.line? with
  | none => 0
  | some c => if c.isSynthetic then c.base else c.base - 1

mutual

/-- Makes a tree plain. `code` does so for the code of strings, under a line. -/
def tree (m : ScanMode) (code : Nat → Tree → Hoist (Out Tree)) (base : Nat) (role : Role) :
    Tree → Hoist (Out Tree)
  | .token t => pure (.all (.token t))
  | .node rule line ps =>
    match treatment role rule with
    | .parts => do
      let out ← parts m code base ps
      return ⟨out.before, .node rule line out.left⟩
    | .partsOut => do
      let out ← parts m code base ps
      takeOut base ⟨out.before, .node rule line out.left⟩
    | .lastAs lastRole =>
      match ps.getLast? with
      | some (.node _ _ _) => do
        let out ← partsLast m code base lastRole ps
        return ⟨out.before, .node rule line out.left⟩
      | _ => pure (.all (.node rule line ps))
    | .chain => links m code base ps
    | .chainOut => do takeOut base (← links m code base ps)
    | .values =>
      match ps with
      | [.node inner line' ps'] =>
        if inner.isCall then tree m code base .value (.node inner line' ps')
        else do
          let out ← tree m code base .value (.node inner line' ps')
          return ⟨out.before, .node rule line [out.left]⟩
      | ps => do
        let out ← values m code base ps
        return ⟨out.before, .node rule line out.left⟩
    | .string => string m (code base) line ps
    | .statements => do return .all (.node rule line (← statements m code ps))
    | .guarded construct =>
      match Tree.firstTokenOf? ps with
      | none => fail (.internal (.noKeyword construct))
      | some token => do
        let out ← parts m code base ps
        guardCondition construct token ⟨out.before, .node rule line out.left⟩

/-- Makes the parts of a node plain. -/
def parts (m : ScanMode) (code : Nat → Tree → Hoist (Out Tree)) (base : Nat) :
    List Tree → Hoist (Out (List Tree))
  | [] => pure (.all [])
  | t :: ts => do
    let first ← tree m code base .part t
    let rest ← parts m code base ts
    return ⟨first.before ++ rest.before, first.left :: rest.left⟩

/-- The same, the last part in a role of its own. -/
def partsLast (m : ScanMode) (code : Nat → Tree → Hoist (Out Tree)) (base : Nat) (role : Role) :
    List Tree → Hoist (Out (List Tree))
  | [] => pure (.all [])
  | [last] => do
    let out ← tree m code base role last
    return ⟨out.before, [out.left]⟩
  | t :: ts => do
    let first ← tree m code base .part t
    let rest ← partsLast m code base role ts
    return ⟨first.before ++ rest.before, first.left :: rest.left⟩

/-- Makes values plain. -/
def values (m : ScanMode) (code : Nat → Tree → Hoist (Out Tree)) (base : Nat) :
    List Tree → Hoist (Out (List Tree))
  | [] => pure (.all [])
  | t :: ts => do
    let first ← tree m code base .value t
    let rest ← values m code base ts
    return ⟨first.before ++ rest.before, first.left :: rest.left⟩

/-- Makes the fragments of a chain plain. -/
def fragments (m : ScanMode) (code : Nat → Tree → Hoist (Out Tree)) (base : Nat) :
    List Tree → Hoist (Out (List Tree))
  | [] => pure (.all [])
  | .token _ :: ts => fragments m code base ts
  | .node rule line ps :: ts => do
    let first ← parts m code base ps
    let rest ← fragments m code base ts
    return ⟨first.before ++ rest.before, .node rule line first.left :: rest.left⟩

/-- Makes a chain plain: its subject, all its fragments, then the links are taken out. -/
def links (m : ScanMode) (code : Nat → Tree → Hoist (Out Tree)) (base : Nat) :
    List Tree → Hoist (Out Tree)
  | .node rule line ps :: ts => do
    let subject ←
      if rule = .path then do
        let out ← parts m code base ps
        pure ⟨out.before, .node rule line out.left⟩
      else tree m code base .operand (.node rule line ps)
    let found ← fragments m code base ts
    chain base firstLink (subject.before ++ found.before) subject.left found.left
  | _ => fail (.internal .noSubject)

/-- Makes statements plain, each with what was taken out of it in front. -/
def statements (m : ScanMode) (code : Nat → Tree → Hoist (Out Tree)) :
    List Tree → Hoist (List Tree)
  | [] => pure []
  | .token t :: ts => do return .token t :: (← statements m code ts)
  | .node rule line ps :: ts => do
    let out ← tree m code (baseOf (.node rule line ps)) .statement (.node rule line ps)
    return out.before ++ out.left :: (← statements m code ts)

end

/-- Makes the code of a string plain, to a depth of strings in code in
strings. A path stays; everything else is taken out. -/
def code (m : ScanMode) : Nat → Nat → Tree → Hoist (Out Tree)
  | 0, _, _ => fail (.internal .tooManySteps)
  | depth + 1, base, t => do
    match t with
    | .node .path line ps =>
      let out ← parts m (code m depth) base ps
      return ⟨out.before, .node .path line out.left⟩
    | t => takeOut base (← tree m (code m depth) base .value t)

/-- A depth that no code of the tree reaches: a string in a code is shorter
than the string the code stands in. -/
def depthOf (t : Tree) : Nat := (t.yield.map fun t => t.literal.length).foldl max 0 + 1

/-- Makes a story plain. -/
def story (m : ScanMode) (t : Tree) : Except Fault Tree :=
  match t with
  | .token t => .ok (.token t)
  | .node rule line ps =>
    let all := Tree.node rule line ps
    match statements m (code m (depthOf all)) ps (.ofTree all) with
    | .error f => .error f
    | .ok (ps, _) => .ok (.node rule line ps)

end Hoist

end StoryLang
