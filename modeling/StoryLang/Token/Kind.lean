/-
The kinds of tokens.

A token is part of the layout (line ends and changes of indentation), a name
or a literal, a symbol of fixed spelling, or a keyword. How a keyword is
spelled is the grammar's choice; `Keyword.name` is what the grammar calls it.
-/

namespace StoryLang

/-- The words with a meaning of their own. -/
inductive Keyword where
  | ifWord | elseWord | foreachWord | whileWord | asWord | tryWord | catchWord | finallyWord
  | throwWord | functionWord | returnsWord | returnWord | breakWord | continueWord | importWord
  | whenWord | thenWord | andWord | orWord | notWord | trueWord | falseWord | nullWord
  deriving DecidableEq, Repr

namespace Keyword

/-- What a grammar calls the keyword. -/
def name : Keyword → String
  | .ifWord => "if"
  | .elseWord => "else"
  | .foreachWord => "foreach"
  | .whileWord => "while"
  | .asWord => "as"
  | .tryWord => "try"
  | .catchWord => "catch"
  | .finallyWord => "finally"
  | .throwWord => "throw"
  | .functionWord => "function"
  | .returnsWord => "returns"
  | .returnWord => "return"
  | .breakWord => "break"
  | .continueWord => "continue"
  | .importWord => "import"
  | .whenWord => "when"
  | .thenWord => "then"
  | .andWord => "and"
  | .orWord => "or"
  | .notWord => "not"
  | .trueWord => "true"
  | .falseWord => "false"
  | .nullWord => "null"

/-- Every keyword. -/
def all : List Keyword :=
  [.ifWord, .elseWord, .foreachWord, .whileWord, .asWord, .tryWord, .catchWord, .finallyWord,
    .throwWord, .functionWord, .returnsWord, .returnWord, .breakWord, .continueWord, .importWord,
    .whenWord, .thenWord, .andWord, .orWord, .notWord, .trueWord, .falseWord, .nullWord]

/-- The keyword a grammar calls by that name. -/
def ofName? (s : String) : Option Keyword := all.find? (·.name = s)

/-- How the kind of its tokens is shown. -/
def label : Keyword → String
  | .ifWord => "IF"
  | .elseWord => "ELSE"
  | .foreachWord => "FOREACH"
  | .whileWord => "WHILE"
  | .asWord => "AS"
  | .tryWord => "TRY"
  | .catchWord => "CATCH"
  | .finallyWord => "FINALLY"
  | .throwWord => "THROW"
  | .functionWord => "FUNCTION"
  | .returnsWord => "RETURNS"
  | .returnWord => "RETURN"
  | .breakWord => "BREAK"
  | .continueWord => "CONTINUE"
  | .importWord => "IMPORT"
  | .whenWord => "WHEN"
  | .thenWord => "THEN"
  | .andWord => "AND"
  | .orWord => "OR"
  | .notWord => "NOT"
  | .trueWord => "TRUE"
  | .falseWord => "FALSE"
  | .nullWord => "NULL"

theorem mem_all (k : Keyword) : k ∈ all := by cases k <;> decide

end Keyword

/-- Operators and delimiters. -/
inductive Symbol where
  | plus | minus | star | slash | percent | caret
  | equal | notEqual | lesser | greater | lesserEqual | greaterEqual | assign
  | leftParen | rightParen | leftBracket | rightBracket | leftBrace | rightBrace
  | comma | colon | dot
  deriving DecidableEq, Repr

namespace Symbol

/-- The one spelling of the symbol. -/
def text : Symbol → String
  | .plus => "+"
  | .minus => "-"
  | .star => "*"
  | .slash => "/"
  | .percent => "%"
  | .caret => "^"
  | .equal => "=="
  | .notEqual => "!="
  | .lesser => "<"
  | .greater => ">"
  | .lesserEqual => "<="
  | .greaterEqual => ">="
  | .assign => "="
  | .leftParen => "("
  | .rightParen => ")"
  | .leftBracket => "["
  | .rightBracket => "]"
  | .leftBrace => "\x7b"
  | .rightBrace => "\x7d"
  | .comma => ","
  | .colon => ":"
  | .dot => "."

/-- How the kind of its tokens is shown. -/
def label : Symbol → String
  | .plus => "PLUS"
  | .minus => "MINUS"
  | .star => "STAR"
  | .slash => "SLASH"
  | .percent => "PERCENT"
  | .caret => "CARET"
  | .equal => "EQUAL"
  | .notEqual => "NOT_EQUAL"
  | .lesser => "LESSER"
  | .greater => "GREATER"
  | .lesserEqual => "LESSER_EQUAL"
  | .greaterEqual => "GREATER_EQUAL"
  | .assign => "EQUALS"
  | .leftParen => "LPAR"
  | .rightParen => "RPAR"
  | .leftBracket => "LSQB"
  | .rightBracket => "RSQB"
  | .leftBrace => "LBRACE"
  | .rightBrace => "RBRACE"
  | .comma => "COMMA"
  | .colon => "COLON"
  | .dot => "DOT"

/-- How reports of defects name the symbol. -/
def tag : Symbol → String
  | .plus => "Plus"
  | .minus => "Minus"
  | .star => "Asterisk"
  | .slash => "Slash"
  | .percent => "Percent"
  | .caret => "Caret"
  | .equal => "Eq"
  | .notEqual => "NotEq"
  | .lesser => "Lt"
  | .greater => "Gt"
  | .lesserEqual => "Lte"
  | .greaterEqual => "Gte"
  | .assign => "Assign"
  | .leftParen => "LParen"
  | .rightParen => "RParen"
  | .leftBracket => "LBracket"
  | .rightBracket => "RBracket"
  | .leftBrace => "LBrace"
  | .rightBrace => "RBrace"
  | .comma => "Comma"
  | .colon => "Colon"
  | .dot => "Dot"

/-- Every symbol. -/
def all : List Symbol :=
  [.plus, .minus, .star, .slash, .percent, .caret, .equal, .notEqual, .lesser, .greater,
    .lesserEqual, .greaterEqual, .assign, .leftParen, .rightParen, .leftBracket, .rightBracket,
    .leftBrace, .rightBrace, .comma, .colon, .dot]

/-- The symbols that can stand between or before operands, and the assignment. -/
def operators : List Symbol :=
  [.plus, .minus, .star, .slash, .percent, .caret, .equal, .notEqual, .lesser, .greater,
    .lesserEqual, .greaterEqual, .assign]

/-- The operator symbol with that spelling. A delimiter is none. -/
def ofText? (s : String) : Option Symbol := operators.find? (·.text = s)

theorem mem_all (s : Symbol) : s ∈ all := by cases s <;> decide

end Symbol

/-- What a token is. -/
inductive TokenKind where
  | newline
  | indent
  | dedent
  | eof
  | name
  | int
  | float
  | string
  | symbol (s : Symbol)
  | keyword (k : Keyword)
  deriving DecidableEq, Repr

namespace TokenKind

/-- How the kind is shown. -/
def label : TokenKind → String
  | .newline => "NL"
  | .indent => "INDENT"
  | .dedent => "DEDENT"
  | .eof => "EOF"
  | .name => "NAME"
  | .int => "INT"
  | .float => "FLOAT"
  | .string => "STRING"
  | .symbol s => s.label
  | .keyword k => k.label

/-- Every kind: layout, names and literals, symbols, keywords. -/
def all : List TokenKind :=
  [.newline, .indent, .dedent, .eof, .name, .int, .float, .string] ++
    Symbol.all.map .symbol ++ Keyword.all.map .keyword

/-- The kind shown like that. -/
def ofLabel? (s : String) : Option TokenKind := all.find? (·.label = s)

/-- A capital in front and small letters after it. -/
def capitalized (s : String) : String :=
  match s.toList with
  | [] => ""
  | c :: cs => String.ofList ((if 'a' ≤ c ∧ c ≤ 'z' then Char.ofNat (c.toNat - 32) else c) :: cs)

/-- How reports of defects name the kind. -/
def tag : TokenKind → String
  | .newline => "Newline"
  | .indent => "Indent"
  | .dedent => "Dedent"
  | .eof => "Eof"
  | .name => "Name"
  | .int => "Int"
  | .float => "Float"
  | .string => "String"
  | .symbol s => s.tag
  | .keyword k => capitalized k.name

/-- What a grammar calls the kind, if it is a keyword. -/
def keywordName? : TokenKind → Option String
  | .keyword k => some k.name
  | _ => none

/-- The kind a grammar line names as an operator: by its symbol or its keyword name. -/
def ofOperatorText? (s : String) : Option TokenKind :=
  ((Symbol.ofText? s).map .symbol).or ((Keyword.ofName? s).map .keyword)

theorem mem_all (k : TokenKind) : k ∈ all := by
  cases k with
  | symbol s => simp [all, Symbol.mem_all]
  | keyword k => simp [all, Keyword.mem_all]
  | _ => simp [all]

end TokenKind

end StoryLang
