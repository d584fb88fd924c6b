/-
The code in a string, by the numbers of characters and bytes.

A string is cut at bytes. Its characters are numbered, and each of them is kept
with the byte it starts at; a piece is what stands between two such bytes. The
place of something in a code is counted from the place of the code, one less
because both are counted from one.
-/
import StoryLang.Hoist.Basic
import StoryLang.Ranged.Scan
import StoryLang.Ranged.Tree

namespace StoryLang.Ranged

/-- The number of the brace that closes a code, from one of its characters on. -/
def matchingBrace (chars : List (Nat × Char)) : Nat → Nat → Option Char → Nat → Option (Option Nat)
  | 0, _, _, _ => none
  | fuel + 1, depth, quote, i =>
    if i < chars.length then do
      let (_, c) ← chars[i]?
      match quote with
      | some q =>
        if c = '\\' then matchingBrace chars fuel depth quote (i + 2)
        else matchingBrace chars fuel depth (if c = q then none else quote) (i + 1)
      | none =>
        if c = '"' ∨ c = '\'' then matchingBrace chars fuel depth (some c) (i + 1)
        else if c = '{' then matchingBrace chars fuel (depth + 1) none (i + 1)
        else if c = '}' then do
          let depth ← minus? depth 1
          if depth = 0 then return some i else matchingBrace chars fuel depth none (i + 1)
        else matchingBrace chars fuel depth none (i + 1)
    else some none

/-- The text from a byte on, up to another. No text is no piece. -/
def textPiece (raw : List Char) (start stop : Nat) : Option (List Piece) :=
  if start < stop then do return [.text (← bytes? raw start stop)] else some []

/-- The pieces of a string from a character on; the text in front of it starts at the byte `start`. -/
def splitFrom (raw : List Char) (chars : List (Nat × Char)) : Nat → Nat → Nat → Option (List Piece)
  | 0, _, _ => none
  | fuel + 1, start, i =>
    if i < chars.length then do
      let (opened, c) ← chars[i]?
      if c = '\\' then splitFrom raw chars fuel start (i + 2)
      else if c = '{' then
        match ← matchingBrace chars (chars.length + 1) 0 none i with
        | none => textPiece raw start (size raw)
        | some close =>
          let (closed, _) ← chars[close]?
          let text ← textPiece raw start opened
          let code ← bytes? raw (opened + 1) closed
          return text ++ .code code (i + 1) :: (← splitFrom raw chars fuel (closed + 1) (close + 1))
      else splitFrom raw chars fuel start (i + 1)
    else textPiece raw start (size raw)

/-- The pieces of a string. -/
def split (raw : List Char) : Option (List Piece) :=
  splitFrom raw (charIndices 0 raw) (raw.length + 1) 0 0

/-- Moves a place inside code to its place in the story, where the code starts at `start`. -/
def shift (start p : Position) : Option Position :=
  if p.line = 1 then do return ⟨start.line, ← minus? (start.column + p.column) 1⟩
  else do return ⟨← minus? (start.line + p.line) 1, p.column⟩

/-- Reads the code of a string that starts at a place. -/
def readCode (m : ScanMode) (source : List Char) (start : Position) : Option (Except Fault Tree) := do
  match (← scan m source).tokens with
  | .error f => return .error (.inText { f with position := ← shift start f.position })
  | .ok tokens =>
    let tokens ← tokens.mapM fun t => do return { t with position := ← shift start t.position }
    ofFragment m.grammar tokens

end StoryLang.Ranged
