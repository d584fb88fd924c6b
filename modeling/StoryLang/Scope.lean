/-
Scopes: the names that are known at a place of a story.

A scope holds each name once, and a name that is declared again stays as it
is. Scopes are stacked; an inner one may hold a name that an outer one holds
as well, and the inner one counts. The root is always there.
-/
import StoryLang.Coord
import StoryLang.Text.Names
import StoryLang.Ty.Basic

namespace StoryLang

/-- A declared name. A name that comes from outside the story has no line. -/
structure Binding where
  name : String
  ty : Ty
  line : Option Coord
  deriving DecidableEq, Repr

/-- The declaring line as reports show it. -/
def Binding.lineText (b : Binding) : String :=
  match b.line with
  | some c => c.text
  | none => "0"

/-- Names with what is known of them. -/
structure Scope where
  bindings : NameMap Binding
  deriving DecidableEq, Repr

namespace Scope

def empty : Scope := ⟨.empty⟩

/-- The binding of a name. -/
def get? (s : Scope) (name : String) : Option Binding := s.bindings.get? name

/-- The scope with one more name, or the binding that the name has already. -/
def declare (s : Scope) (b : Binding) : Except Binding Scope :=
  match s.get? b.name with
  | some existing => .error existing
  | none => .ok ⟨s.bindings.insert b.name b⟩

/-- The scope with another type for a name. -/
def retype (s : Scope) (name : String) (ty : Ty) : Scope :=
  match s.get? name with
  | some b => ⟨s.bindings.insert name { b with ty }⟩
  | none => s

/-- The bindings in the order of their names. -/
def toList (s : Scope) : List Binding := s.bindings.values

theorem get?_declare {s s' : Scope} {b : Binding} (h : s.declare b = .ok s') (name : String) :
    s'.get? name = if name = b.name then some b else s.get? name := by
  unfold declare at h
  split at h
  · simp at h
  · injection h with h
    subst h
    split
    · rename_i hn
      simp [get?, hn]
    · rename_i hn
      exact NameMap.get?_insert_other _ _ hn

theorem declare_eq_error_iff {s : Scope} {b existing : Binding} :
    s.declare b = .error existing ↔ s.get? b.name = some existing := by
  unfold declare
  split <;> simp_all

end Scope

/-- Scopes on top of each other, the innermost first. -/
structure Scopes where
  inner : List Scope
  root : Scope
  deriving DecidableEq, Repr

namespace Scopes

/-- Nothing on top of the root. -/
def ofRoot (root : Scope) : Scopes := ⟨[], root⟩

/-- How many scopes there are. -/
def depth (s : Scopes) : Nat := s.inner.length + 1

/-- A new scope on top. -/
def push (s : Scopes) : Scopes := { s with inner := .empty :: s.inner }

/-- The top scope and those below it, unless there is only the root. -/
def pop? (s : Scopes) : Option (Scope × Scopes) :=
  match s.inner with
  | [] => none
  | top :: rest => some (top, { s with inner := rest })

/-- The scopes without the top one. The root stays. -/
def dropTop (s : Scopes) : Scopes := { s with inner := s.inner.tail }

/-- The top scope. -/
def top (s : Scopes) : Scope := s.inner.headD s.root

/-- Declares a name in the top scope. -/
def declare (s : Scopes) (b : Binding) : Except Binding Scopes :=
  match s.inner with
  | [] => (s.root.declare b).map fun root => { s with root }
  | top :: rest => (top.declare b).map fun top => { s with inner := top :: rest }

/-- The innermost binding of a name. -/
def get? (s : Scopes) (name : String) : Option Binding :=
  (s.inner.findSome? (·.get? name)).or (s.root.get? name)

/-- The innermost binding of a name in the scopes from number `floor` on,
counted from the root, or else in the root. -/
def getFrom? (s : Scopes) (floor : Nat) (name : String) : Option Binding :=
  ((s.inner.take (s.depth - floor)).findSome? (·.get? name)).or (s.root.get? name)

/-- Gives the innermost binding of a name another type, among some scopes. -/
def retypeIn (name : String) (ty : Ty) : List Scope → Option (List Scope)
  | [] => none
  | s :: rest =>
    if (s.get? name).isSome then some (s.retype name ty :: rest)
    else (retypeIn name ty rest).map (s :: ·)

/-- Gives the innermost binding of a name another type. -/
def retype (s : Scopes) (name : String) (ty : Ty) : Scopes :=
  match retypeIn name ty s.inner with
  | some inner => { s with inner }
  | none => { s with root := s.root.retype name ty }

theorem dropTop_push (s : Scopes) : s.push.dropTop = s := rfl

end Scopes

end StoryLang
