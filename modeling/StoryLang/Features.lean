/-
Features: switches for optional parts of the language.

A story can set them for itself by lines `// FEAT: name=value` before its
first line of code. Other comment lines and blank lines may stand between
them, and a later line overrides an earlier one.
-/
import StoryLang.Text.Blank

namespace StoryLang

/-- What can be wrong with setting a feature. -/
inductive FeatureFault where
  | unknown (name : String)
  | notAFlag (name value : String)
  deriving DecidableEq, Repr

/-- What is wrong, in words. -/
def FeatureFault.message : FeatureFault → String
  | .unknown name => s!"unknown feature `{name}`"
  | .notAFlag name value => s!"feature `{name}` can't be set to `{value}`"

/-- The switches of a compilation. -/
structure Features where
  /-- Strings may stand between apostrophes. -/
  singleQuotes : Bool
  /-- Function bodies see and write the variables of the story. -/
  globals : Bool
  /-- The conditions of `if`, `else if` and `while` have to be boolean. -/
  strictConditions : Bool
  deriving DecidableEq, Repr

namespace Features

/-- All switches off. -/
def off : Features := ⟨false, false, false⟩

/-- The state of the feature of that name. -/
def get? (f : Features) (name : String) : Option Bool :=
  if name = "single_quotes" then some f.singleQuotes
  else if name = "globals" then some f.globals
  else if name = "strict_conditions" then some f.strictConditions
  else none

/-- The features with one of them switched. -/
def set (f : Features) (name : String) (value : Bool) : Except FeatureFault Features :=
  if name = "single_quotes" then .ok { f with singleQuotes := value }
  else if name = "globals" then .ok { f with globals := value }
  else if name = "strict_conditions" then .ok { f with strictConditions := value }
  else .error (.unknown name)

/-- The value of a flag, in any mixture of small and capital letters. -/
def flag? (value : List Char) : Option Bool :=
  let lower (c : Char) : Char := if 'A' ≤ c ∧ c ≤ 'Z' then Char.ofNat (c.toNat + 32) else c
  let word := String.ofList (value.map lower)
  if word = "true" ∨ word = "1" ∨ word = "on" ∨ word = "yes" then some true
  else if word = "false" ∨ word = "0" ∨ word = "off" ∨ word = "no" then some false
  else none

/-- Carries out one setting: `name=value`, or `name` alone to switch it on.
The value is looked at before the name. -/
def applySetting (f : Features) (setting : List Char) : Except FeatureFault Features :=
  let (name, value) := match Text.splitFirst? '=' setting with
    | some (name, value) => (Text.trim name, Text.trim value)
    | none => (Text.trim setting, "true".toList)
  match flag? value with
  | none => .error (.notAFlag (String.ofList name) (String.ofList value))
  | some value => f.set (String.ofList name) value

/-- Carries out the settings among lines, up to the first line of code. -/
def applyLines (f : Features) : List (List Char) → Except FeatureFault Features
  | [] => .ok f
  | raw :: rest =>
    let line := Text.trim raw
    match Text.dropPrefix? "// FEAT:".toList line with
    | some setting => do applyLines (← f.applySetting setting) rest
    | none =>
      if line.isEmpty ∨ (Text.dropPrefix? ['/', '/'] line).isSome then applyLines f rest
      else .ok f

/-- Carries out the settings at the start of a story. -/
def applyHeader (f : Features) (source : List Char) : Except FeatureFault Features :=
  f.applyLines (Text.lines (source.dropWhile (· = Text.byteOrderMark)))

end Features

end StoryLang
