/-
JSON values whose objects keep the order of their members.

A number is a whole number or a number of the 64 bit format: the two are
written differently, so they are different values.
-/
import StoryLang.Decimal.Shortest

namespace StoryLang

/-- A JSON value. -/
inductive Json where
  | null
  | bool (b : Bool)
  | int (n : Int)
  | float (x : Binary64)
  | str (s : String)
  | arr (items : List Json)
  | obj (members : List (String × Json))
  deriving Inhabited, Repr

namespace Json

mutual

/-- Whether two values are the same. -/
def same : Json → Json → Bool
  | null, null => true
  | bool b, bool b' => b = b'
  | int n, int n' => n = n'
  | float x, float x' => x = x'
  | str s, str s' => s = s'
  | arr items, arr items' => sameItems items items'
  | obj members, obj members' => sameMembers members members'
  | _, _ => false

/-- Whether two rows of items are the same. -/
def sameItems : List Json → List Json → Bool
  | [], [] => true
  | v :: vs, w :: ws => same v w && sameItems vs ws
  | _, _ => false

/-- Whether two rows of members are the same. -/
def sameMembers : List (String × Json) → List (String × Json) → Bool
  | [], [] => true
  | (k, v) :: vs, (l, w) :: ws => k = l && same v w && sameMembers vs ws
  | _, _ => false

end

mutual

theorem same_iff (v w : Json) : same v w = true ↔ v = w := by
  cases v <;> cases w <;> simp [same]
  · exact sameItems_iff _ _
  · exact sameMembers_iff _ _

theorem sameItems_iff (vs ws : List Json) : sameItems vs ws = true ↔ vs = ws := by
  cases vs <;> cases ws <;> simp [sameItems]
  rw [same_iff, sameItems_iff]

theorem sameMembers_iff (vs ws : List (String × Json)) : sameMembers vs ws = true ↔ vs = ws := by
  match vs, ws with
  | [], [] => simp [sameMembers]
  | [], _ :: _ => simp [sameMembers]
  | _ :: _, [] => simp [sameMembers]
  | (k, v) :: vs, (l, w) :: ws =>
    simp only [sameMembers, Bool.and_eq_true, decide_eq_true_eq, List.cons.injEq, Prod.mk.injEq]
    rw [same_iff, sameMembers_iff]

end

instance : DecidableEq Json := fun v w => decidable_of_iff _ (same_iff v w)

/-- The value of an object's first member of that name. -/
def get? (key : String) : Json → Option Json
  | obj members => (members.find? (·.1 = key)).map (·.2)
  | _ => none

/-- A text, or null. -/
def ofText? : Option String → Json
  | some s => str s
  | none => null

/-- A value that says nothing: null, false, and what is empty. -/
def isBlank : Json → Bool
  | null | bool false => true
  | str s => s.isEmpty
  | arr items => items.isEmpty
  | obj members => members.isEmpty
  | bool true | int _ | float _ => false

mutual

/-- The value without blank items and members at any depth. What only becomes
blank by losing its own items goes as well. -/
def clean : Json → Json
  | arr items => arr (cleanItems items)
  | obj members => obj (cleanMembers members)
  | null => null
  | bool b => bool b
  | int n => int n
  | float x => float x
  | str s => str s

/-- The items that say something, each cleaned. -/
def cleanItems : List Json → List Json
  | [] => []
  | v :: rest =>
    let kept := clean v
    if kept.isBlank then cleanItems rest else kept :: cleanItems rest

/-- The members that say something, each cleaned. -/
def cleanMembers : List (String × Json) → List (String × Json)
  | [] => []
  | (key, v) :: rest =>
    let kept := clean v
    if kept.isBlank then cleanMembers rest else (key, kept) :: cleanMembers rest

end

end Json

end StoryLang
