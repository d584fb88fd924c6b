/-
What checking counts and cuts.

The distance of two words is counted in one row, whose entries are written over
one after the other. The parts of a type are cut out of a text at bytes. Scopes
are stacked in one list, the root with them, and the number of the innermost
one is one less than there are scopes.
-/
import StoryLang.Check.Basic
import StoryLang.Ranged.Basic
import StoryLang.Text.Distance

namespace StoryLang.Ranged

/-! ## Words -/

/-- Writes over the entries behind the number `j`. `diagonal` is what stood at `j`. -/
def nextEntries (c : Char) : List Char → Nat → Nat → List Nat → Option (List Nat)
  | [], _, _, row => some row
  | d :: ds, j, diagonal, row => do
    let above ← row[j + 1]?
    let left ← row[j]?
    let entry := min (min (above + 1) (left + 1)) (diagonal + if c = d then 0 else 1)
    nextEntries c ds (j + 1) above (← set? row (j + 1) entry)

/-- Writes over the row for the character with the number `i` of the first word. -/
def nextRow (c : Char) (b : List Char) (i : Nat) (row : List Nat) : Option (List Nat) := do
  let diagonal ← row[0]?
  nextEntries c b 0 diagonal (← set? row 0 (i + 1))

/-- The row after the rest of the first word. -/
def lastRow (b : List Char) : List Char → Nat → List Nat → Option (List Nat)
  | [], _, row => some row
  | c :: cs, i, row => do lastRow b cs (i + 1) (← nextRow c b i row)

/-- The edit distance of two words. -/
def distance (a b : List Char) : Option Nat := do
  (← lastRow b a 0 (List.range (b.length + 1)))[b.length]?

/-! ## Types -/

/-- The parts of a text between the commas outside all brackets, from the byte `start` on. -/
def partsFrom (text : List Char) : List (Nat × Char) → Nat → Nat → Option (List (List Char))
  | [], _, start => do return [← bytes? text start (size text)]
  | (i, c) :: chars, depth, start =>
    if c = ',' ∧ depth = 0 then do
      let part ← bytes? text start i
      return part :: (← partsFrom text chars depth (i + 1))
    else
      partsFrom text chars (if c = '[' then depth + 1 else if c = ']' then depth - 1 else depth) start

/-- Reads parts, unless one is no type. -/
def readParts (read : List Char → Option (Option Ty)) : List (List Char) → Option (Option (List Ty))
  | [] => some (some [])
  | part :: parts => do
    match ← read part with
    | none => return none
    | some ty => return (← readParts read parts).map (ty :: ·)

/-- Reads a type that has less than `fuel` characters. -/
def readWith : Nat → List Char → Option (Option Ty)
  | 0, _ => none
  | fuel + 1, raw =>
    let text := Text.trim raw
    match (charIndices 0 text).find? (·.2 = '[') with
    | none => some (Ty.ofName? (String.ofList text) [])
    | some (opened, _) => do
      match Ty.dropBracket? (← bytes? text (opened + 1) (size text)) with
      | none => return none
      | some inner =>
        match ← readParts (readWith fuel) (← partsFrom inner (charIndices 0 inner) 0 0) with
        | none => return none
        | some parts => return Ty.ofName? (String.ofList (← bytes? text 0 opened)) parts

/-- The type a text names. -/
def ofText? (s : String) : Option (Option Ty) := readWith (s.toList.length + 1) s.toList

/-! ## Scopes -/

/-- The scopes as they are stacked, the innermost first and the root last. -/
def stack (s : Scopes) : List Scope := s.inner ++ [s.root]

/-- Takes the innermost scope off, unless there is only one. -/
def dropTop (scopes : List Scope) : List Scope :=
  if 1 < scopes.length then scopes.tail else scopes

/-- Declares a name in the innermost scope, if there is one. -/
def declare (b : Binding) : List Scope → Except Binding (List Scope)
  | [] => .ok []
  | top :: rest => (top.declare b).map (· :: rest)

/-- The number of the innermost scope, counted from the root. -/
def topNumber (scopes : List Scope) : Option Nat := minus? scopes.length 1

end StoryLang.Ranged
