/-
Coordinates and variables for what is taken out of a statement.

What is taken out becomes the value of a variable of its own. The variable is
named after the coordinate of its assignment, with a dash in the name so that
no name of a story can be the same. Under each line coordinates are issued in
order and never twice; a tree that already has some is continued after them.
-/
import StoryLang.Tree.Basic

namespace StoryLang

/-- The last running number issued under each line that has any. -/
structure Issued where
  last : List (Nat × Nat)
  deriving Repr

namespace Issued

/-- Nothing issued. -/
def none : Issued := ⟨[]⟩

/-- The last running number under a line, zero if there is none. -/
def get (i : Issued) (base : Nat) : Nat := ((i.last.find? (·.1 = base)).map (·.2)).getD 0

/-- Sets the last running number under a line. -/
def set (i : Issued) (base seq : Nat) : Issued :=
  ⟨(base, seq) :: i.last.filter (·.1 ≠ base)⟩

/-- The next coordinate under a line. -/
def next (i : Issued) (base : Nat) : Coord × Issued :=
  (⟨base, i.get base + 1⟩, i.set base (i.get base + 1))

/-- Counts a coordinate as issued. -/
def cover (i : Issued) (c : Coord) : Issued :=
  if c.isSynthetic then i.set c.base (max (i.get c.base) c.seq) else i

/-- Everything issued that a tree has. -/
def ofTree (t : Tree) : Issued :=
  (t.walk.filterMap Tree.ownLine?).foldl cover none

theorem get_set_self (i : Issued) (base seq : Nat) : (i.set base seq).get base = seq := by
  simp [get, set]

theorem get_set_other (i : Issued) {base base' : Nat} (seq : Nat) (h : base' ≠ base) :
    (i.set base seq).get base' = i.get base' := by
  have hf : ∀ l : List (Nat × Nat),
      (l.filter (·.1 ≠ base)).find? (·.1 = base') = l.find? (·.1 = base') := by
    intro l
    induction l with
    | nil => rfl
    | cons p l ih =>
      by_cases hp : p.1 = base
      · have : p.1 ≠ base' := fun e => h (e.symm.trans hp)
        simp_all
      · by_cases hq : p.1 = base' <;> simp_all
  simp only [get, set, List.find?_cons]
  rw [show decide (base = base') = false from decide_eq_false fun e => h e.symm]
  simp only [hf]

end Issued

/-- The name of the variable assigned at a coordinate. -/
def Coord.variable (c : Coord) : String := "p-" ++ c.text

/-- Whether a name is one of these. -/
def isIssuedName (name : String) : Bool :=
  match name.toList with
  | 'p' :: '-' :: _ => true
  | _ => false

/-- The path that reads the variable of a coordinate. -/
def Coord.path (c : Coord) (place : Position) : Tree :=
  .of .path [.token ⟨.name, c.variable, place⟩]

/-- The assignment of a value to the variable of a coordinate. -/
def Coord.assignment (c : Coord) (value : Tree) : Tree :=
  let place := value.position?.getD .first
  .node .assignment (some c) [c.path place, .token ⟨.symbol .assign, "=", place⟩, value]

/-- Takes a value out: its assignment, and the path to put in its place. -/
def Issued.assign (i : Issued) (base : Nat) (value : Tree) : (Tree × Tree) × Issued :=
  let (c, i) := i.next base
  ((c.assignment value, c.path (value.position?.getD .first)), i)

end StoryLang
