/-
What checking a story knows and finds out.

Checking never stops at a mistake: it reports it and goes on as if the value
in question could be anything. Only a registry that fails stops it.
-/
import StoryLang.Fault
import StoryLang.Features
import StoryLang.Hub.Basic
import StoryLang.Scope
import StoryLang.Tree.Basic
import StoryLang.Ty.Operation

namespace StoryLang

/-- What is declared of a function. -/
structure Signature where
  name : String
  parameters : List (String × Ty)
  returns : Ty
  line : Coord
  deriving DecidableEq, Repr

/-- The type of a function. -/
def Signature.ty (s : Signature) : Ty := .function (s.parameters.map (·.2)) s.returns

namespace Check

/-- The function around a statement, and the number of the scope its body starts in. -/
structure Body where
  name : String
  returns : Ty
  floor : Nat

/-- What is known before checking a statement. -/
structure Env where
  features : Features
  /-- Without one, calls of services are not checked. -/
  registry : Option Registry
  functions : NameMap Signature
  body : Option Body

/-- What changes while checking. Reports have the newest first. -/
structure State where
  scopes : Scopes
  reports : List Diagnostic
  services : NameMap Unit
  deriving Repr

end Check

/-- Checking something. -/
abbrev Check (α : Type) : Type := StateT Check.State (Except Fault) α

namespace Check

/-- Reports a mistake. -/
def report (code : Code) (args : List String) (place : Option Position) : Check Unit := fun s =>
  let d := Diagnostic.ofCode code args
  let d := match place with
    | some p => d.placed p
    | none => d
  .ok ((), { s with reports := d :: s.reports })

/-- What is known of a name. Without the feature for it, a function body sees
nothing between itself and the root. -/
def lookup (e : Env) (name : String) : Check (Option Binding) := fun s =>
  let found := match e.body with
    | some body =>
      if e.features.globals then s.scopes.get? name else s.scopes.getFrom? body.floor name
    | none => s.scopes.get? name
  .ok (found, s)

/-- Adds a scope. -/
def push : Check Unit := fun s => .ok ((), { s with scopes := s.scopes.push })

/-- Drops a scope. -/
def pop : Check Unit := fun s => .ok ((), { s with scopes := s.scopes.dropTop })

/-- Checks something in a scope of its own. -/
def inOwnScope {α : Type} (check : Check α) : Check α := do
  push
  let a ← check
  pop
  return a

/-- The number of the innermost scope. -/
def topNumber : Check Nat := fun s => .ok (s.scopes.depth - 1, s)

/-- Notes that a service is used. -/
def useService (name : String) : Check Unit := fun s =>
  .ok ((), { s with services := s.services.insert name () })

/-- Declares a name in the innermost scope, which must not have it. -/
def declare (name : String) (ty : Ty) (line : Option Coord) (place : Position) : Check Unit :=
  fun s =>
    match s.scopes.declare ⟨name, ty, line⟩ with
    | .ok scopes => .ok ((), { s with scopes })
    | .error existing => report .alreadyDeclared [name, existing.lineText] (some place) s

/-- What a registry knows of a service. -/
def service? (r : Registry) (name : String) : Check (Option HubService) := fun s =>
  match r with
  | .hub h => .ok (h.service? name, s)
  | .failing => .error (.internal .registryFailed)

mutual

/-- The type that a tree of names spells, or the name that is none. -/
def spelled : Tree → Except String Ty
  | .token t => (Ty.ofName? t.literal []).elim (.error t.literal) .ok
  | .node _ _ ps =>
    match Tree.firstTokenOf? ps with
    | none => .ok .any
    | some name =>
      match spelledParts ps with
      | .error wrong => .error wrong
      | .ok parts => (Ty.ofName? name.literal parts).elim (.error name.literal) .ok

/-- The types that the nodes of a row spell. -/
def spelledParts : List Tree → Except String (List Ty)
  | [] => .ok []
  | .token _ :: ts => spelledParts ts
  | .node r l ps :: ts => do return (← spelled (.node r l ps)) :: (← spelledParts ts)

end

/-- The type that is written, `any` if none is or if it is none. -/
def spelledOrAny (types : Option Tree) : Ty :=
  match types with
  | none => .any
  | some t =>
    match spelled t with
    | .ok ty => ty
    | .error _ => .any

/-- The same, with a report of what is no type. -/
def writtenType (types : Option Tree) : Check Ty := do
  match types with
  | none => return .any
  | some t =>
    match spelled t with
    | .ok ty => return ty
    | .error wrong =>
      report .unknownType [wrong] t.position?
      return .any

end Check

end StoryLang
