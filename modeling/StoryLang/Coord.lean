/-
Line coordinates: where a statement stands in a compiled script.

A statement of the story has the number of its line. A statement that was
taken out of another one has the number of the line before it and a running
number, so it comes after everything on that line and before its user.
Coordinates are ordered by line, then by running number.
-/
import StoryLang.Text.Blank
import StoryLang.Text.Number

namespace StoryLang

/-- A line coordinate. The running number of a line of the story is zero. -/
structure Coord where
  base : Nat
  seq : Nat
  deriving DecidableEq, Repr

namespace Coord

/-- The coordinate of a line of the story. -/
def ofLine (line : Nat) : Coord := ⟨line, 0⟩

/-- Whether no line of the story has this coordinate. -/
def isSynthetic (c : Coord) : Bool := c.seq ≠ 0

/-- The line, and the running number after a point if there is one. -/
def text (c : Coord) : String :=
  if c.seq = 0 then toString c.base else toString c.base ++ "." ++ toString c.seq

/-- The order of a script. -/
def lt (a b : Coord) : Prop := a.base < b.base ∨ (a.base = b.base ∧ a.seq < b.seq)

instance : LT Coord := ⟨lt⟩

instance (a b : Coord) : Decidable (a < b) :=
  inferInstanceAs (Decidable (a.base < b.base ∨ (a.base = b.base ∧ a.seq < b.seq)))

/-- Whether a coordinate does not come after another. -/
def le (a b : Coord) : Bool := ¬ b < a

/-- The coordinate a text names. The line fits 64 bits, the running number 32,
and a running number of zero is not written. -/
def ofText? (s : String) : Option Coord :=
  match Text.splitFirst? '.' s.toList with
  | none => (Text.natural? Text.maxUnsigned64 s.toList).map ofLine
  | some (base, seq) =>
    match Text.natural? Text.maxUnsigned64 base, Text.natural? Text.maxUnsigned32 seq with
    | some base, some (seq + 1) => some ⟨base, seq + 1⟩
    | _, _ => none

/-- What is said of a text that names no coordinate. -/
def notOne (s : String) : String := "`" ++ s ++ "` is not a line coordinate"

theorem lt_iff {a b : Coord} : a < b ↔ a.base < b.base ∨ (a.base = b.base ∧ a.seq < b.seq) :=
  Iff.rfl

theorem lt_irrefl (a : Coord) : ¬ a < a := by
  rw [lt_iff]
  omega

theorem lt_trans {a b c : Coord} (h : a < b) (h' : b < c) : a < c := by
  rw [lt_iff] at *
  omega

theorem lt_or_eq_or_lt (a b : Coord) : a < b ∨ a = b ∨ b < a := by
  obtain ⟨x, i⟩ := a
  obtain ⟨y, j⟩ := b
  simp only [lt_iff, mk.injEq]
  omega

end Coord

end StoryLang
