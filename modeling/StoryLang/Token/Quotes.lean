/-
The text of a string between its quotes.

It is taken as it is written. A backslash takes the next character along, and
code between braces is taken up to its closing brace, over nested braces and
over quoted keys. Quotes and braces have to be closed on the line.
-/
import StoryLang.Token.Fault

namespace StoryLang.Quotes

/-- Where reading stands between the quotes: in text, or in code that was
opened at a place, some braces deep, maybe between quotes of its own. -/
inductive Inside where
  | text
  | code (opened : Position) (depth : Nat) (quoted : Bool)
  deriving DecidableEq, Repr

/-- What an unquoted character does to the depth of the code it stands in. -/
def afterCode (quote c : Char) (opened : Position) (depth : Nat) (quoted : Bool) : Inside :=
  if c = quote then .code opened depth (!quoted)
  else if quoted then .code opened depth true
  else if c = '{' then .code opened (depth + 1) false
  else if c = '}' then
    match depth with
    | 0 | 1 => .text
    | n + 2 => .code opened (n + 1) false
  else .code opened depth false

/-- The text up to the closing quote, from a place inside, and what follows
the quote. The fault is where code was opened that is not closed, or none if
it is the string itself that is not closed. -/
def body (quote : Char) : Inside → Position → List Char →
    Except (Option Position) (List Char × List Char)
  | .text, _, [] => .error none
  | .code opened _ _, _, [] => .error (some opened)
  | .text, p, c :: cs =>
    if c = '\n' then .error none
    else if c = quote then .ok ([], cs)
    else if c = '\\' then
      match cs with
      | [] => .error none
      | d :: ds =>
        if d = '\n' then .error none
        else (body quote .text ((p.after c).after d) ds).map fun (text, rest) =>
          (c :: d :: text, rest)
    else
      let inside := if c = '{' then .code p 1 false else .text
      (body quote inside (p.after c) cs).map fun (text, rest) => (c :: text, rest)
  | .code opened depth quoted, p, c :: cs =>
    if c = '\n' then .error (some opened)
    else if quoted ∧ c = '\\' then
      match cs with
      | [] => .error (some opened)
      | d :: ds =>
        if d = '\n' then .error (some opened)
        else (body quote (.code opened depth true) ((p.after c).after d) ds).map
          fun (text, rest) => (c :: d :: text, rest)
    else
      (body quote (afterCode quote c opened depth quoted) (p.after c) cs).map
        fun (text, rest) => (c :: text, rest)

end StoryLang.Quotes
