/-
Grammars: how keywords are spelled, which operators there are and how they
bind, which words are kept for the future and which name types.

A higher precedence binds tighter, and zero is below every operator. A table
holds at most one operator between operands and one before an operand for
each kind of token, in the order they were declared.

A grammar is written one directive a line, with blanks between the words and
comments from `#` to the end of the line. `Grammar.ofSource` reads the lines
in order and stops at the first one that is wrong. In the end every keyword
needs a spelling. Without a `cast` line a cast binds tighter than everything,
which needs a precedence that is left above all others.
-/
import StoryLang.Text.Blank
import StoryLang.Text.Number
import StoryLang.Token.Kind

namespace StoryLang

/-- How a row of operators of one precedence is grouped. -/
inductive Grouping where
  | left
  | right
  /-- Such a row is not allowed. -/
  | none
  deriving DecidableEq, Repr

namespace Grouping

def name : Grouping → String
  | .left => "left"
  | .right => "right"
  | .none => "none"

/-- The grouping of a name. The last one has two. -/
def ofName? (s : String) : Option Grouping :=
  if s = "left" then some .left
  else if s = "right" then some .right
  else if s = "none" ∨ s = "nonassoc" then some .none
  else Option.none

end Grouping

/-- One operator of a grammar. -/
structure Operator where
  kind : TokenKind
  precedence : Nat
  grouping : Grouping
  deriving DecidableEq, Repr

/-- An operator in the right operand has to bind tighter than this. -/
def Operator.rightPrecedence (o : Operator) : Nat :=
  match o.grouping with
  | .left | .none => o.precedence
  | .right => o.precedence - 1

/-- The operators of a grammar. -/
structure OperatorTable where
  /-- Operators between two operands. -/
  between : List Operator
  /-- Operators before one operand. -/
  before : List Operator
  deriving DecidableEq, Repr

namespace OperatorTable

def empty : OperatorTable := ⟨[], []⟩

/-- The operator between operands with tokens of that kind. -/
def between? (t : OperatorTable) (k : TokenKind) : Option Operator :=
  t.between.find? (·.kind = k)

/-- The operator before an operand with tokens of that kind. -/
def before? (t : OperatorTable) (k : TokenKind) : Option Operator :=
  t.before.find? (·.kind = k)

/-- The table with one more operator between operands, unless its kind has one. -/
def addBetween? (t : OperatorTable) (o : Operator) : Option OperatorTable :=
  if (t.between? o.kind).isSome then none else some { t with between := t.between ++ [o] }

/-- The table with one more operator before an operand, unless its kind has one. -/
def addBefore? (t : OperatorTable) (o : Operator) : Option OperatorTable :=
  if (t.before? o.kind).isSome then none else some { t with before := t.before ++ [o] }

/-- The highest precedence of the table, zero if it is empty. -/
def highest (t : OperatorTable) : Nat :=
  (t.between ++ t.before).foldl (fun n o => max n o.precedence) 0

end OperatorTable

/-- What can be wrong with a line of a grammar. -/
inductive GrammarFault.Cause where
  | unknownDirective (word : String)
  | keywordForm
  | unknownKeyword (name : String)
  | notASpelling (word : String)
  | spellingTaken (word : String)
  | betweenForm
  | unknownGrouping (word : String)
  | noOperators
  | betweenTwice (operator : String)
  | beforeForm
  | beforeTwice (operator : String)
  | noPrecedence
  | notAPrecedence (word : String)
  | unknownOperator (word : String)
  | notSpelled (keyword : Keyword)
  /-- The precedence after the highest one is out of range. -/
  | noneTighter
  deriving DecidableEq, Repr

/-- A fault in a grammar and the line it is in. -/
structure GrammarFault where
  line : Nat
  cause : GrammarFault.Cause
  deriving DecidableEq, Repr

namespace GrammarFault

/-- What is wrong, in words. -/
def Cause.text : Cause → String
  | .unknownDirective w => s!"unknown directive `{w}`"
  | .keywordForm => "expected `keyword <name> <spelling>`"
  | .unknownKeyword n => s!"unknown keyword `{n}`"
  | .notASpelling w => s!"`{w}` can't be used as a keyword spelling"
  | .spellingTaken w => s!"spelling `{w}` is already used"
  | .betweenForm => "expected `operator <precedence> <assoc> <operator>...`"
  | .unknownGrouping w => s!"unknown associativity `{w}`"
  | .noOperators => "operator line lists no operators"
  | .betweenTwice o => s!"operator `{o}` is declared twice"
  | .beforeForm => "expected `unary <precedence> <operator>...`"
  | .beforeTwice o => s!"unary operator `{o}` is declared twice"
  | .noPrecedence => "missing precedence"
  | .notAPrecedence w => s!"`{w}` is not a valid precedence"
  | .unknownOperator w => s!"unknown operator `{w}`"
  | .notSpelled k => s!"keyword `{k.name}` has no spelling"
  | .noneTighter => "attempt to add with overflow"

/-- The line and what is wrong there. -/
def message (f : GrammarFault) : String := s!"grammar line {f.line}: {f.cause.text}"

end GrammarFault

/-- The tables of a grammar. -/
structure Grammar where
  /-- The text the grammar was read from. -/
  source : String
  /-- The words that are read as keywords. -/
  keywords : List (String × Keyword)
  /-- How keywords are written in reports: the spelling declared last. -/
  spellings : List (Keyword × String)
  operators : OperatorTable
  castPrecedence : Nat
  reserved : List String
  typeNames : List String
  deriving DecidableEq, Repr

namespace Grammar

/-- A grammar that declares nothing. -/
def empty (source : String) : Grammar :=
  { source, keywords := [], spellings := [], operators := .empty, castPrecedence := 0
    reserved := [], typeNames := [] }

/-- The keyword a word is read as. -/
def keyword? (g : Grammar) (word : String) : Option Keyword :=
  (g.keywords.find? (·.1 = word)).map (·.2)

/-- The spelling of a keyword, if it has been given one. -/
def spelling? (g : Grammar) (k : Keyword) : Option String :=
  (g.spellings.find? (·.1 = k)).map (·.2)

/-- How a report writes a kind of token. -/
def spelling (g : Grammar) : TokenKind → String
  | .keyword k => (g.spelling? k).getD k.name
  | .symbol s => s.text
  | kind => kind.label

/-- Words that are kept for the future and cannot be names. -/
def isReserved (g : Grammar) (word : String) : Bool := g.reserved.contains word

/-- Words that make `as` a cast. -/
def isTypeName (g : Grammar) (word : String) : Bool := g.typeNames.contains word

/-- A letter of ASCII or an underscore. -/
def isWordStart (c : Char) : Bool :=
  ('a' ≤ c && c ≤ 'z') || ('A' ≤ c && c ≤ 'Z') || c == '_'

/-- A letter, an underscore or a digit. -/
def isWordChar (c : Char) : Bool := isWordStart c || Text.isDigit c

/-- What can be a name or the spelling of a keyword. -/
def isWord (s : String) : Bool :=
  match s.toList with
  | [] => false
  | c :: cs => isWordStart c && cs.all isWordChar

/-- Precedences are numbers of one byte. -/
def maxPrecedence : Nat := 255

/-- A precedence: a number from 1 to 255. -/
def precedence (word : String) : Except GrammarFault.Cause Nat :=
  match Text.natural? maxPrecedence word.toList with
  | some (n + 1) => .ok (n + 1)
  | _ => .error (.notAPrecedence word)

/-- The kind of token an operator is written with. -/
def operatorKind (word : String) : Except GrammarFault.Cause TokenKind :=
  match TokenKind.ofOperatorText? word with
  | some kind => .ok kind
  | none => .error (.unknownOperator word)

/-- Gives a keyword a spelling. A spelling belongs to one keyword only. -/
def declareKeyword (g : Grammar) : List String → Except GrammarFault.Cause Grammar
  | [name, spelling] =>
    match Keyword.ofName? name with
    | none => .error (.unknownKeyword name)
    | some k =>
      if !isWord spelling then .error (.notASpelling spelling)
      else if (g.keyword? spelling).any (· ≠ k) then .error (.spellingTaken spelling)
      else .ok { g with
        keywords := (spelling, k) :: g.keywords
        spellings := (k, spelling) :: g.spellings }
  | _ => .error .keywordForm

/-- Declares operators between operands. -/
def addBetween (g : Grammar) (precedence : Nat) (grouping : Grouping) :
    List String → Except GrammarFault.Cause Grammar
  | [] => .ok g
  | word :: words => do
    let kind ← operatorKind word
    match g.operators.addBetween? ⟨kind, precedence, grouping⟩ with
    | none => .error (.betweenTwice word)
    | some operators => addBetween { g with operators } precedence grouping words

/-- A line of operators between operands: precedence, grouping, operators. -/
def declareBetween (g : Grammar) : List String → Except GrammarFault.Cause Grammar
  | number :: grouping :: words => do
    let number ← precedence number
    match Grouping.ofName? grouping with
    | none => .error (.unknownGrouping grouping)
    | some grouping =>
      if words.isEmpty then .error .noOperators else g.addBetween number grouping words
  | _ => .error .betweenForm

/-- Declares operators before an operand. -/
def addBefore (g : Grammar) (precedence : Nat) :
    List String → Except GrammarFault.Cause Grammar
  | [] => .ok g
  | word :: words => do
    let kind ← operatorKind word
    match g.operators.addBefore? ⟨kind, precedence, .right⟩ with
    | none => .error (.beforeTwice word)
    | some operators => addBefore { g with operators } precedence words

/-- A line of operators before an operand: precedence, operators. -/
def declareBefore (g : Grammar) : List String → Except GrammarFault.Cause Grammar
  | number :: words => do g.addBefore (← precedence number) words
  | [] => .error .beforeForm

/-- A line of the precedence of casts. -/
def declareCast (g : Grammar) : List String → Except GrammarFault.Cause Grammar
  | number :: _ => do .ok { g with castPrecedence := ← precedence number }
  | [] => .error .noPrecedence

/-- One directive, by its first word. -/
def declare (g : Grammar) (directive : String) (words : List String) :
    Except GrammarFault.Cause Grammar :=
  if directive = "keyword" then g.declareKeyword words
  else if directive = "operator" then g.declareBetween words
  else if directive = "unary" then g.declareBefore words
  else if directive = "cast" then g.declareCast words
  else if directive = "reserved" then .ok { g with reserved := g.reserved ++ words }
  else if directive = "type" then .ok { g with typeNames := g.typeNames ++ words }
  else .error (.unknownDirective directive)

/-- The words of a line before its comment. -/
def lineWords (line : List Char) : List String :=
  (Text.words (line.takeWhile (· ≠ '#'))).map String.ofList

/-- Reads lines, the first of which has the number `n`. -/
def readLines (g : Grammar) : Nat → List (List Char) → Except GrammarFault Grammar
  | _, [] => .ok g
  | n, line :: rest =>
    match lineWords line with
    | [] => readLines g (n + 1) rest
    | directive :: words =>
      match g.declare directive words with
      | .ok g => readLines g (n + 1) rest
      | .error cause => .error ⟨n, cause⟩

/-- The grammar with a precedence of casts: the one that was declared, or the
one after the highest precedence, if there is one. -/
def withCast? (g : Grammar) : Option Grammar :=
  if g.castPrecedence ≠ 0 then some g
  else if g.operators.highest < maxPrecedence then
    some { g with castPrecedence := g.operators.highest + 1 }
  else none

/-- Reads a grammar. What is missing in the end counts as a fault of the last line. -/
def ofSource (source : String) : Except GrammarFault Grammar := do
  let lines := Text.lines source.toList
  let g ← readLines (empty source) 1 lines
  match Keyword.all.find? fun k => (g.spelling? k).isNone with
  | some k => .error ⟨lines.length, .notSpelled k⟩
  | none =>
    match g.withCast? with
    | some g => .ok g
    | none => .error ⟨lines.length, .noneTighter⟩

end Grammar

end StoryLang
