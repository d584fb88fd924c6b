/-
The edit distance of two words, and when one word is a near miss of another.

The distance is counted row by row: `row` holds the distances of the first
word read so far to every prefix of the second one.
-/

namespace StoryLang.Text

/-- The rest of the next row. `left` is the entry just written, `diagonal` the
entry above it, and the list holds the entries above what is still to write. -/
def nextEntries (c : Char) : Nat → Nat → List Char → List Nat → List Nat
  | left, diagonal, d :: ds, above :: row =>
    let entry := min (min (above + 1) (left + 1)) (diagonal + if c = d then 0 else 1)
    entry :: nextEntries c entry above ds row
  | _, _, _, _ => []

/-- The row after one more character of the first word. -/
def nextRow (c : Char) (b : List Char) : List Nat → List Nat
  | [] => []
  | first :: row => (first + 1) :: nextEntries c (first + 1) first b row

/-- The least number of insertions, deletions and replacements of characters
that turn `a` into `b`. -/
def distance (a b : List Char) : Nat :=
  (a.foldl (fun row c => nextRow c b row) (List.range (b.length + 1))).getLast?.getD 0

/-- A near miss: not the word itself, at most two edits away (one for a short
word), and long enough for the likeness to mean something. -/
def isMisspelling (word target : String) : Bool :=
  word ≠ target && 3 ≤ word.length &&
    distance word.toList target.toList ≤ if target.length ≤ 4 then 1 else 2

end StoryLang.Text
