/-
Types of values, and which values fit where.

`any` fits everywhere and takes everything, and null fits everywhere. Apart
from these, a type takes what is part of it: a float takes an int, lists and
maps compare by their parts, and a record takes a record with at least its
fields. What a service answers with is known by service and command.
-/

namespace StoryLang

/-- A type. The fields of an object are in the order of their names; an object
without fields is any object. -/
inductive Ty where
  | int
  | float
  | string
  | boolean
  | regex
  | time
  /-- The type of null. -/
  | null
  | list (element : Ty)
  | map (key value : Ty)
  | object (fields : List (String × Ty))
  | function (parameters : List Ty) (returns : Ty)
  /-- The output of a service command that has events. -/
  | service (service command : String)
  | any
  deriving Repr

namespace Ty

/-! ## Equality -/

mutual

/-- Whether two types are the same. -/
def same : Ty → Ty → Bool
  | int, int | float, float | string, string | boolean, boolean | regex, regex | time, time
  | null, null | any, any => true
  | list a, list b => same a b
  | map k v, map k' v' => same k k' && same v v'
  | object fs, object gs => sameFields fs gs
  | function ps r, function qs s => sameAll ps qs && same r s
  | service s c, service s' c' => s = s' && c = c'
  | _, _ => false

/-- Whether two rows of types are the same. -/
def sameAll : List Ty → List Ty → Bool
  | [], [] => true
  | a :: as, b :: bs => same a b && sameAll as bs
  | _, _ => false

/-- Whether two rows of fields are the same. -/
def sameFields : List (String × Ty) → List (String × Ty) → Bool
  | [], [] => true
  | (x, a) :: as, (y, b) :: bs => x = y && same a b && sameFields as bs
  | _, _ => false

end

mutual

theorem same_iff (a b : Ty) : same a b = true ↔ a = b := by
  cases a <;> cases b <;> simp [same]
  · exact same_iff _ _
  · rw [same_iff, same_iff]
  · exact sameFields_iff _ _
  · rw [sameAll_iff, same_iff]

theorem sameAll_iff (as bs : List Ty) : sameAll as bs = true ↔ as = bs := by
  cases as <;> cases bs <;> simp [sameAll]
  rw [same_iff, sameAll_iff]

theorem sameFields_iff (as bs : List (String × Ty)) : sameFields as bs = true ↔ as = bs := by
  match as, bs with
  | [], [] => simp [sameFields]
  | [], _ :: _ => simp [sameFields]
  | _ :: _, [] => simp [sameFields]
  | (x, a) :: as, (y, b) :: bs =>
    simp only [sameFields, Bool.and_eq_true, decide_eq_true_eq, List.cons.injEq, Prod.mk.injEq]
    rw [same_iff, sameFields_iff]

end

instance : DecidableEq Ty := fun a b => decidable_of_iff _ (same_iff a b)

/-! ## Which values fit -/

/-- Any object. -/
def anyObject : Ty := object []

/-- Any function. -/
def anyFunction : Ty := function [] any

def isAny : Ty → Bool
  | any => true
  | _ => false

def isNumeric : Ty → Bool
  | int | float => true
  | _ => false

/-- Whether texts fit as keys of that type. -/
def takesText : Ty → Bool
  | any | string => true
  | _ => false

/-- The type of a field. -/
def fieldType? (name : String) (fields : List (String × Ty)) : Option Ty :=
  (fields.find? (·.1 = name)).map (·.2)

mutual

/-- Whether a value of the second type may stand where the first is needed. -/
def accepts : Ty → Ty → Bool
  | any, _ => true
  | int, other => match other with
    | any | null | int => true
    | _ => false
  | float, other => match other with
    | any | null | float | int => true
    | _ => false
  | string, other => match other with
    | any | null | string => true
    | _ => false
  | boolean, other => match other with
    | any | null | boolean => true
    | _ => false
  | regex, other => match other with
    | any | null | regex => true
    | _ => false
  | time, other => match other with
    | any | null | time => true
    | _ => false
  | null, other => match other with
    | any | null => true
    | _ => false
  | list a, other => match other with
    | any | null => true
    | list b => accepts a b
    | _ => false
  | map k v, other => match other with
    | any | null => true
    | map k' v' => accepts k k' && accepts v v'
    | _ => false
  | object fields, other => match other with
    | any | null => true
    | object others => acceptsFields fields others
    | map k _ => fields.isEmpty && k.takesText
    | _ => false
  | function _ _, other => match other with
    | any | null | function _ _ => true
    | _ => false
  | service s c, other => match other with
    | any | null => true
    | service s' c' => s = s' && c = c'
    | _ => false

/-- Whether each field has a partner of its name that fits. -/
def acceptsFields : List (String × Ty) → List (String × Ty) → Bool
  | [], _ => true
  | (name, a) :: fields, others =>
    (match fieldType? name others with
      | some b => accepts a b
      | none => false) && acceptsFields fields others

end

/-- One of two types that takes the other as well, the first if both do;
`any` if neither does. -/
def common (a b : Ty) : Ty :=
  if a.accepts b && !a.isAny then a
  else if b.accepts a && !b.isAny then b
  else any

/-- Whether a value can be converted to a type by `as`. -/
def castsTo : Ty → Ty → Bool
  | any, _ | _, any | _, string => true
  | string, int | string, float | string, boolean | string, regex | string, time => true
  | int, int | int, float | float, int | float, float => true
  | int, boolean | boolean, int => true
  | list _, list _ | map _ _, map _ _ => true
  | map _ _, object _ | object _, map _ _ => true
  | source, target => target.accepts source

/-- The types of the names of a `foreach`: with one name the items or keys,
with two also their indexes or values. -/
def iterated? (t : Ty) (names : Nat) : Option (List Ty) :=
  match t with
  | list element => some (if 2 ≤ names then [int, element] else [element])
  | map key value => some (if 2 ≤ names then [key, value] else [key])
  | any => some (if 2 ≤ names then [any, any] else [any])
  | _ => none

/-- The type of an item picked by an index. -/
def indexed? (t index : Ty) : Option Ty :=
  match t with
  | any => some any
  | list element => if int.accepts index then some element else none
  | map key value => if key.accepts index then some value else none
  | string => if int.accepts index then some string else none
  | object _ => if string.accepts index then some any else none
  | _ => none

/-- The type of a field picked by its name. -/
def field? (t : Ty) (name : String) : Option Ty :=
  match t with
  | any | service _ _ => some any
  | object [] => some any
  | object fields => fieldType? name fields
  | map key value => if key.takesText then some value else none
  | _ => none

/-- How a type is written. -/
def text : Ty → String
  | int => "int"
  | float => "float"
  | string => "string"
  | boolean => "boolean"
  | regex => "regex"
  | time => "time"
  | null => "null"
  | list element => "list[" ++ text element ++ "]"
  | map key value => "map[" ++ text key ++ "," ++ text value ++ "]"
  | object _ => "object"
  | function _ _ => "function"
  | service name _ => name
  | any => "any"

end Ty

end StoryLang
