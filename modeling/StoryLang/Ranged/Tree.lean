/-
Reading trees by the numbers of tokens.

Here a place is the number of the current token. The statement being read is
known by the number of the token it starts with, and what is around it by
counting functions and loops on the way in and back again on the way out, also
where reading stops inside. `Ranged.Place` is a reader as a cursor is.
-/
import StoryLang.Ranged.Basic
import StoryLang.Tree.Statement

namespace StoryLang.Ranged

/-- A place between tokens, by numbers. -/
structure Place where
  tokens : List Token
  /-- The number of the current token. -/
  index : Nat
  /-- The number of the token that the current statement starts with. -/
  start : Nat
  /-- How many functions are around. -/
  functions : Nat
  /-- How many loops are around, inside the innermost function. -/
  loops : Nat

/-- Why reading ends early. -/
inductive Halt where
  | outOfRange
  /-- With a fault, at a place. -/
  | stopped (fault : Fault) (place : Place)

namespace Place

/-- In front of some tokens. -/
def first (tokens : List Token) : Place := ⟨tokens ++ Cursor.missingEnd tokens, 0, 0, 0, 0⟩

/-- The tokens of the statement that have been read. -/
def statement? (p : Place) : Option (List Token) :=
  slice? p.tokens (min p.start p.index) (min p.index p.tokens.length)

/-- Stuck at the current token. -/
def stuck? (p : Place) (g : Grammar) (expected : List TokenKind) : Option Stuck := do
  return {
    grammar := g
    previous := (minus? p.index 1).bind fun i => p.tokens[i]?
    statement := ← p.statement?
    current := ← p.tokens[p.index]?
    next := p.tokens[p.index + 1]?
    expected }

/-- With one loop less around. -/
def leaveLoop? (p : Place) : Option Place := do return { p with loops := ← minus? p.loops 1 }

/-- With one function less around, and so many loops. -/
def leaveFunction? (p : Place) (loops : Nat) : Option Place := do
  return { p with functions := ← minus? p.functions 1, loops }

end Place

/-- The value, if there is one. -/
def orHalt {α : Type} : Option α → Except Halt α
  | some a => .ok a
  | none => .error .outOfRange

/-- Leaves what was entered, whether reading came to an end there or not. -/
def leaving {α : Type} (leave? : Place → Option Place) :
    Except Halt (α × Place) → Except Halt (α × Place)
  | .ok (a, p) => (orHalt (leave? p)).map (a, ·)
  | .error (.stopped f p) => (orHalt (leave? p)).bind fun p => .error (.stopped f p)
  | .error .outOfRange => .error .outOfRange

instance : Reader Place Halt where
  current p := (orHalt p.tokens[p.index]?).map (·, p)
  following p := (orHalt (p.tokens[p.index + 1]?.or p.tokens[p.index]?)).map (·, p)
  take p := (orHalt p.tokens[p.index]?).map fun t =>
    (t, if p.index + 1 < p.tokens.length then { p with index := p.index + 1 } else p)
  startStatement p := .ok ((), { p with start := p.index })
  fail f p := .error (.stopped f p)
  unexpected g expected p := (orHalt (p.stuck? g expected)).bind fun s =>
    .error (.stopped (.inTokens s.fault) p)
  within read p := (read p).map fun (a, p') => (a, { p' with start := p.start })
  inLoop read p := leaving Place.leaveLoop? (read { p with loops := p.loops + 1 })
  inFunction read p :=
    leaving (·.leaveFunction? p.loops) (read { p with functions := p.functions + 1, loops := 0 })
  isInLoop _ p := .ok (p.loops ≠ 0, p)
  isInFunction _ p := .ok (p.functions ≠ 0, p)

/-- What reading came to, unless it left the range. -/
def outcome? {α : Type} : Except Halt (α × Place) → Option (Except Fault α)
  | .ok (a, _) => some (.ok a)
  | .error (.stopped f _) => some (.error f)
  | .error .outOfRange => none

/-- The tree of a story's tokens. -/
def ofTokens (g : Grammar) (tokens : List Token) : Option (Except Fault Tree) :=
  outcome? (Read.story g (Read.bound tokens) (Place.first tokens))

/-- The tree of the tokens of a value. -/
def ofFragment (g : Grammar) (tokens : List Token) : Option (Except Fault Tree) :=
  outcome? (Read.fragment g (Read.bound tokens) (Place.first tokens))

end StoryLang.Ranged
