/-
Stories: a text with a name, what is made of it, and what comes of that.

A story is cut into tokens, the tokens are put into a tree, calls and
interpolations are taken out of the tree's values, the tree is checked, and a
script is made of it. A fault stops this; what checking finds does not, but
there is no script if it is an error. A story succeeds if it is compiled and
none of its reports is an error.
-/
import StoryLang.Check.Statement
import StoryLang.Diagnostic.Basic
import StoryLang.Hoist.Basic
import StoryLang.Options
import StoryLang.Script.OfTree
import StoryLang.Tree.Statement

namespace StoryLang

/-- What compiling a story gives. -/
structure Outcome where
  story : String
  diagnostics : List Diagnostic
  /-- The checked tree, also if checking found errors. -/
  tree : Option Tree
  compiled : Option CompiledStory
  deriving Repr

namespace Outcome

/-- The outcome of a story that could not even be read. -/
def failed (story : String) (d : Diagnostic) : Outcome :=
  { story, diagnostics := [d.inStory story], tree := none, compiled := none }

/-- The reports of a severity. -/
def withSeverity (o : Outcome) (severity : Severity) : List Diagnostic :=
  o.diagnostics.filter (·.severity = severity)

def errors (o : Outcome) : List Diagnostic := o.withSeverity .error

def warnings (o : Outcome) : List Diagnostic := o.withSeverity .warning

def deprecations (o : Outcome) : List Diagnostic := o.withSeverity .deprecation

def isSuccess (o : Outcome) : Bool := o.errors.isEmpty && o.compiled.isSome

/-- The compiled story, or the first error. A story without either has met an
internal error. -/
def result (o : Outcome) : Except Diagnostic CompiledStory :=
  match o.errors, o.compiled with
  | d :: _, _ => .error d
  | [], some c => .ok c
  | [], none => .error (Diagnostic.internal.inStory o.story)

/-- The document of the compiled story. -/
def document (o : Outcome) (concise : Bool) : Option Json := o.compiled.map (·.document concise)

end Outcome

/-- The reports about a story while it is compiled. -/
structure Reports where
  story : String
  source : String
  /-- The newest first. -/
  reversed : List Diagnostic
  deriving Repr

namespace Reports

/-- No reports. -/
def start (story source : String) : Reports := ⟨story, source, []⟩

/-- The line of the story with that number, counted from one. What follows the
last line end is a line only if there is something. -/
def line? (r : Reports) (line : Nat) : Option String :=
  match line with
  | 0 => none
  | n + 1 => (Text.lines r.source.toList)[n]?.map String.ofList

/-- The report as it is kept: about the story, and with the line it is at. -/
def attach (r : Reports) (d : Diagnostic) : Diagnostic :=
  let d := d.inStory r.story
  match d.position.bind fun p => r.line? p.line with
  | some line => { d with sourceLine := some line }
  | none => d

/-- One more report. -/
def add (r : Reports) (d : Diagnostic) : Reports :=
  { r with reversed := r.attach d :: r.reversed }

/-- More reports, in order. -/
def addAll (r : Reports) (ds : List Diagnostic) : Reports := ds.foldl add r

/-- The reports, the oldest first. -/
def toList (r : Reports) : List Diagnostic := r.reversed.reverse

def hasErrors (r : Reports) : Bool := r.reversed.any (·.isError)

/-- The outcome of a story with these reports. -/
def outcome (r : Reports) (tree : Option Tree) (compiled : Option CompiledStory) : Outcome :=
  { story := r.story, diagnostics := r.toList, tree, compiled }

end Reports

/-- A story. -/
structure Story where
  name : String
  source : String
  deriving DecidableEq, Repr

namespace Story

/-- The story of a text. A byte order mark in front of the text is not part of it. -/
def ofText (name text : String) : Story := ⟨name, String.ofList (Text.dropMark text.toList)⟩

/-- A story without a name of its own. -/
def unnamed (text : String) : Story := ofText Diagnostic.unnamedStory text

/-! ## Stages -/

/-- The features of a story: the given ones as its first lines change them. -/
def features (s : Story) (o : Options) : Except Diagnostic Features :=
  match o.features.applyHeader s.source.toList with
  | .ok f => .ok f
  | .error fault => .error (.ofCode .invalidFeature [fault.message])

/-- How a story is read with some features. -/
def modeOf (o : Options) (f : Features) : ScanMode := ⟨o.grammarInUse, f.singleQuotes⟩

/-- The tokens of a story, with what the scan reports besides. -/
def scanned (s : Story) (m : ScanMode) : Scanned := scan m s.source.toList

/-- The tree of tokens. -/
def treeOf (m : ScanMode) (tokens : List Token) : Except Fault Tree :=
  Tree.ofTokens m.grammar tokens

/-- The tree of tokens with calls and interpolations taken out of values. -/
def hoistedTreeOf (m : ScanMode) (tokens : List Token) : Except Fault Tree := do
  Hoist.story m (← treeOf m tokens)

/-- A report as it is given back for a single stage: about the story, and with
the line it is at. -/
def attach (s : Story) (d : Diagnostic) : Diagnostic := (d.inStory s.name).withSource s.source

/-! ## What is made of a story -/

/-- The tokens of a story. -/
def tokens (s : Story) (o : Options) : Except Diagnostic (List Token) :=
  match s.features o with
  | .error d => .error (s.attach d)
  | .ok f =>
    match (s.scanned (modeOf o f)).tokens with
    | .error fault => .error (s.attach fault.diagnostic)
    | .ok ts => .ok ts

/-- The tree of a story. It is hoisted if calls and interpolations have been
taken out of its values. -/
def tree (s : Story) (o : Options) (hoisted : Bool) : Except Diagnostic Tree :=
  match s.features o with
  | .error d => .error (s.attach d)
  | .ok f =>
    let m := modeOf o f
    match (s.scanned m).tokens with
    | .error fault => .error (s.attach fault.diagnostic)
    | .ok ts =>
      match if hoisted then hoistedTreeOf m ts else treeOf m ts with
      | .error fault => .error (s.attach fault.diagnostic)
      | .ok t => .ok t

/-- Compiles a checked tree, unless something reported about it is an error. -/
def finish (s : Story) (o : Options) (reports : Reports) (t : Tree) (services : List String) :
    Outcome :=
  if reports.hasErrors then reports.outcome (some t) none
  else
    match CompiledStory.ofTree s.source t services with
    | .error fault => (reports.add fault.diagnostic).outcome none none
    | .ok c =>
      reports.outcome (some t) (some { c with tree := if o.debugTree then some t else none })

/-- Checks a tree and goes on with it. -/
def check (s : Story) (o : Options) (f : Features) (reports : Reports) (t : Tree) : Outcome :=
  match Check.story f o.registry o.scope t with
  | .error fault => (reports.add fault.diagnostic).outcome none none
  | .ok (t, analysis) => s.finish o (reports.addAll analysis.diagnostics) t analysis.services

/-- Compiles a story. -/
def compile (s : Story) (o : Options) : Outcome :=
  let reports := Reports.start s.name s.source
  match s.features o with
  | .error d => (reports.add d).outcome none none
  | .ok f =>
    let m := modeOf o f
    let scanned := s.scanned m
    match scanned.tokens with
    | .error fault => (reports.add fault.diagnostic).outcome none none
    | .ok ts =>
      let reports := reports.addAll (scanned.hashComments.map hashCommentReport)
      match hoistedTreeOf m ts with
      | .error fault => (reports.add fault.diagnostic).outcome none none
      | .ok t => s.check o f reports t

end Story

end StoryLang
