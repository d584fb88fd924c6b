/-
Options: what all stories of a compilation have in common, and their one-line
description.
-/
import StoryLang.Features
import StoryLang.Grammar.BuiltIn
import StoryLang.Hub.Basic
import StoryLang.Scope
import StoryLang.Text.Quoted

namespace StoryLang

/-- The settings of a compilation. -/
structure Options where
  features : Features
  /-- Without one, calls of services are not checked. -/
  registry : Option Registry
  /-- Names that every story knows without declaring them. -/
  scope : Scope
  /-- The grammar to use in place of the built-in one. -/
  grammar : Option Grammar
  /-- Whether a compiled story shows its tree. -/
  debugTree : Bool
  /-- Whether documents leave out what says nothing. -/
  concise : Bool
  /-- Whether the stages of a compilation are traced. -/
  verbose : Bool

namespace Options

/-- The settings if nothing is set. -/
def standard : Options :=
  { features := .off, registry := none, scope := .empty, grammar := none, debugTree := false,
    concise := false, verbose := false }

/-- The grammar that is in use. -/
def grammarInUse (o : Options) : Grammar := o.grammar.getD .builtIn

end Options

/-! ## Description -/

namespace Description

/-- A record with its fields, all on one line. -/
def record (name : String) (fields : List (String × String)) : String :=
  name ++ " \x7b " ++ ", ".intercalate (fields.map fun (key, v) => key ++ ": " ++ v) ++ " \x7d"

/-- A map with its entries, all on one line. -/
def map (entries : List (String × String)) : String :=
  "\x7b" ++ ", ".intercalate (entries.map fun (key, v) => Text.quoted key ++ ": " ++ v) ++ "\x7d"

mutual

/-- The description of a type. -/
def ofTy : Ty → String
  | .int => "Int"
  | .float => "Float"
  | .string => "String"
  | .boolean => "Boolean"
  | .regex => "Regex"
  | .time => "Time"
  | .null => "Null"
  | .any => "Any"
  | .list element => "List(" ++ ofTy element ++ ")"
  | .map key value => "Map(" ++ ofTy key ++ ", " ++ ofTy value ++ ")"
  | .object fields => "Object(" ++ map (ofFields fields) ++ ")"
  | .function parameters returns =>
    "Function([" ++ ", ".intercalate (ofTys parameters) ++ "], " ++ ofTy returns ++ ")"
  | .service service command =>
    record "Service" [("service", Text.quoted service), ("command", Text.quoted command)]

/-- The descriptions of types in a row. -/
def ofTys : List Ty → List String
  | [] => []
  | ty :: tys => ofTy ty :: ofTys tys

/-- The descriptions of the fields of an object. -/
def ofFields : List (String × Ty) → List (String × String)
  | [] => []
  | (name, ty) :: fields => (name, ofTy ty) :: ofFields fields

end

/-- The description of a coordinate, if there is one. -/
def ofLine : Option Coord → String
  | none => "None"
  | some c =>
    "Some(" ++ record "LineCoord" [("base", toString c.base), ("seq", toString c.seq)] ++ ")"

/-- The description of a binding. -/
def ofBinding (b : Binding) : String :=
  record "Symbol" [("name", Text.quoted b.name), ("ty", ofTy b.ty), ("line", ofLine b.line)]

/-- The description of a scope. -/
def ofScope (s : Scope) : String :=
  record "Scope" [("symbols", map (s.toList.map fun b => (b.name, ofBinding b)))]

/-- The description of features. -/
def ofFeatures (f : Features) : String :=
  record "Features"
    [("single_quotes", toString f.singleQuotes), ("globals", toString f.globals),
     ("strict_conditions", toString f.strictConditions)]

end Description

/-- The settings on one line. Of registry and grammar it only says whether there is one. -/
def Options.description (o : Options) : String :=
  Description.record "CompileOptions"
    [("features", Description.ofFeatures o.features),
     ("registry", toString o.registry.isSome),
     ("scope", Description.ofScope o.scope),
     ("grammar", toString o.grammar.isSome),
     ("debug_tree", toString o.debugTree),
     ("concise", toString o.concise),
     ("verbose", toString o.verbose)]

end StoryLang
