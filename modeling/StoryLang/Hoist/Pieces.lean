/-
What a string consists of: runs of text, and code between braces.

A string is kept as it was written. `Pieces.split` cuts it into its pieces and
`Pieces.unescape` gives the characters that a run of text stands for.
-/
import StoryLang.Token.Basic

namespace StoryLang

/-- A piece of a string as it was written. -/
inductive Piece where
  | text (raw : List Char)
  /-- What stands between two braces, and how many characters come before it in the string. -/
  | code (source : List Char) (offset : Nat)
  deriving DecidableEq, Repr

def Piece.isCode : Piece → Bool
  | .code _ _ => true
  | .text _ => false

namespace Pieces

/-- The code up to its closing brace, from some braces deep on and maybe
inside a quote. A backslash in quotes takes the next character along. -/
def code? : Nat → Option Char → List Char → Option (List Char)
  | _, _, [] => none
  | depth, some q, c :: cs =>
    if c = '\\' then
      match cs with
      | [] => none
      | d :: ds => (code? depth (some q) ds).map fun code => c :: d :: code
    else (code? depth (if c = q then none else some q) cs).map (c :: ·)
  | depth, none, c :: cs =>
    if c = '"' ∨ c = '\'' then (code? depth (some c) cs).map (c :: ·)
    else if c = '{' then (code? (depth + 1) none cs).map (c :: ·)
    else if c = '}' then
      match depth with
      | 0 | 1 => some []
      | n + 2 => (code? (n + 1) none cs).map (c :: ·)
    else (code? depth none cs).map (c :: ·)

/-- Puts characters in front of pieces. -/
def addText (cs : List Char) : List Piece → List Piece
  | .text raw :: pieces => .text (cs ++ raw) :: pieces
  | pieces => .text cs :: pieces

/-- The pieces of the rest of a string, `skip` characters of which belong to
code already found; `offset` characters come before the rest. A brace that is
not closed leaves the rest text. -/
def splitFrom : Nat → Nat → List Char → List Piece
  | _, _, [] => []
  | skip + 1, offset, _ :: cs => splitFrom skip (offset + 1) cs
  | 0, offset, c :: cs =>
    if c = '\\' then
      match cs with
      | [] => addText [c] []
      | d :: ds => addText [c, d] (splitFrom 0 (offset + 2) ds)
    else if c = '{' then
      match code? 1 none cs with
      | none => addText (c :: cs) []
      | some code => .code code (offset + 1) :: splitFrom (code.length + 1) (offset + 1) cs
    else addText [c] (splitFrom 0 (offset + 1) cs)

/-- The pieces of a string. -/
def split (raw : List Char) : List Piece := splitFrom 0 0 raw

/-- Whether there is code in a string. -/
def hasCode (raw : List Char) : Bool := (split raw).any Piece.isCode

/-- The character that a backslash and a letter stand for. -/
def escape? (c : Char) : Option Char :=
  if c = 'n' then some '\n'
  else if c = 't' then some '\t'
  else if c = 'r' then some '\r'
  else if c = '\\' ∨ c = '"' ∨ c = '\'' ∨ c = '{' ∨ c = '}' then some c
  else none

/-- The characters a run of text stands for. A backslash that escapes nothing
stands for itself. -/
def unescape : List Char → List Char
  | [] => []
  | [c] => [c]
  | c :: d :: cs =>
    if c = '\\' then
      match escape? d with
      | some e => e :: unescape cs
      | none => c :: d :: unescape cs
    else c :: unescape (d :: cs)

end Pieces

end StoryLang
