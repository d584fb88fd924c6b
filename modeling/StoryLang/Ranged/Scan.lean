/-
Reading a text as tokens, with counts that stay in range.

Two numbers are taken down on the way: how many braces deep the code of a
string is, and the column in front of code that shares its line with the end of
a comment.
-/
import StoryLang.Ranged.Basic
import StoryLang.Token.Scan

namespace StoryLang.Ranged

open Quotes (Inside)
open Scan (State Stop)

/-- What an unquoted character does to the depth of the code it stands in. -/
def afterCode (quote c : Char) (opened : Position) (depth : Nat) (quoted : Bool) :
    Option Inside :=
  if c = quote then some (.code opened depth (!quoted))
  else if quoted then some (.code opened depth true)
  else if c = '{' then some (.code opened (depth + 1) false)
  else if c = '}' then do
    let depth ← minus? depth 1
    return if depth = 0 then .text else .code opened depth false
  else some (.code opened depth false)

/-- The text up to the closing quote, and what follows the quote. -/
def body (quote : Char) : Inside → Position → List Char →
    Option (Except (Option Position) (List Char × List Char))
  | .text, _, [] => some (.error none)
  | .code opened _ _, _, [] => some (.error (some opened))
  | .text, p, c :: cs =>
    if c = '\n' then some (.error none)
    else if c = quote then some (.ok ([], cs))
    else if c = '\\' then
      match cs with
      | [] => some (.error none)
      | d :: ds =>
        if d = '\n' then some (.error none)
        else (body quote .text ((p.after c).after d) ds).map fun read =>
          read.map fun (text, rest) => (c :: d :: text, rest)
    else
      let inside := if c = '{' then .code p 1 false else .text
      (body quote inside (p.after c) cs).map fun read => read.map fun (text, rest) => (c :: text, rest)
  | .code opened depth quoted, p, c :: cs =>
    if c = '\n' then some (.error (some opened))
    else if quoted ∧ c = '\\' then
      match cs with
      | [] => some (.error (some opened))
      | d :: ds =>
        if d = '\n' then some (.error (some opened))
        else (body quote (.code opened depth true) ((p.after c).after d) ds).map fun read =>
          read.map fun (text, rest) => (c :: d :: text, rest)
    else
      (afterCode quote c opened depth quoted).bind fun inside =>
        (body quote inside (p.after c) cs).map fun read =>
          read.map fun (text, rest) => (c :: text, rest)

/-- Reads a string from its opening quote on. -/
def readString (s : State) (quote : Char) : Option (Except Stop State) := do
  let inside := s.spot.next
  match ← body quote .text inside.place inside.rest with
  | .ok (text, _) =>
    return .ok { s with
      spot := (inside.past text).next
      tokens := ⟨.string, String.ofList text, s.spot.place⟩ :: s.tokens }
  | .error (some opened) => return s.stop .interpolationNotClosed opened
  | .error none =>
    let glued := s.spot.before.any Grammar.isWordChar
    return s.stop (if glued then .noOpeningQuote else .noClosingQuote) s.spot.place

/-- Passes lines without code and sets the indentation of the first line with some. -/
def startLine : Nat → State → Option (Except Stop (State × Bool))
  | 0, s => some (.ok (s, false))
  | fuel + 1, s =>
    let w := s.width
    let s := s.moveTo s.spot.pastGap
    match s.spot.rest with
    | [] => some (.ok (s, false))
    | '\n' :: _ => startLine fuel (s.moveTo s.spot.next)
    | '#' :: _ => startLine fuel s.pastHash
    | '/' :: '/' :: _ => startLine fuel (s.moveTo s.spot.lineEnd)
    | '/' :: '*' :: _ =>
      match s.pastComment with
      | .error stop => some (.error stop)
      | .ok s =>
        let s := s.moveTo s.spot.pastGap
        if State.restIsBlank s.spot.rest then startLine fuel s
        else (minus? s.spot.place.column 1).map fun w => (s.indentTo w).map (·, true)
    | _ => some ((s.indentTo w).map (·, true))

/-- Reads what starts with `c`. Only strings count something. -/
def readNext (m : ScanMode) (s : State) (c : Char) (rest : List Char) :
    Option (Except Stop State) :=
  if c = '"' then readString s '"'
  else if c = '\'' ∧ m.singleQuotes then readString s '\''
  else some (s.readNext m c rest)

/-- Reads what comes next on a line. -/
def readLine (m : ScanMode) (s : State) : Option (Except Stop (State × Bool)) :=
  let s := s.moveTo s.spot.pastGap
  match s.spot.rest with
  | [] => some (.ok (s, false))
  | c :: rest => (readNext m s c rest).map (·.map (·, true))

/-- One step: the layout in front of a line, then what comes next on it. -/
def step (m : ScanMode) (fuel : Nat) (s : State) : Option (Except Stop (State × Bool)) :=
  (if s.atLineStart then startLine fuel s else some (.ok (s, true))).bind fun
    | .error stop => some (.error stop)
    | .ok (s, false) => some (.ok (s, false))
    | .ok (s, true) => readLine m s

/-- Steps until the end of the text or a fault. -/
def run (m : ScanMode) : Nat → State → Option Scanned
  | 0, s => some ⟨.ok s.finish, s.hashComments.reverse⟩
  | fuel + 1, s =>
    (step m (fuel + 1) s).bind fun
      | .error stop => some ⟨.error stop.fault, stop.hashComments.reverse⟩
      | .ok (s, true) => run m fuel s
      | .ok (s, false) => some ⟨.ok s.finish, s.hashComments.reverse⟩

/-- Reads a text as tokens. -/
def scan (m : ScanMode) (text : List Char) : Option Scanned :=
  run m (text.length + 1) (.start text)

end StoryLang.Ranged
