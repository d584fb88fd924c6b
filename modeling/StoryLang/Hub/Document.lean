/-
Hub documents: hubs as JSON.

A record is an object with its fields, any of which may be left out and each
of which may be there once; it may also be the list of its first fields in
order. Fields of other names are passed over: their values have to be well
written and need not stand for anything. A map is an object, and of two members
of one name the later counts. Every name of a field or member is a text.
-/
import StoryLang.Hub.Basic
import StoryLang.Json.Printer
import StoryLang.Json.Reader

namespace StoryLang

open Json (Written)

namespace HubDocument

/-- The members of an object with their names, each of which is a text. -/
def named? (members : List (Option String × Written)) : Option (List (String × Written)) :=
  members.mapM fun (name, v) => name.map (·, v)

/-- A map, its values read by `read`. -/
def map? {α : Type} (read : Written → Option α) : Written → Option (NameMap α)
  | .obj members => do
    let entries ← (← named? members).mapM fun (name, v) => (read v).map (name, ·)
    some (NameMap.ofList entries)
  | _ => none

/-- The value of a field of an object, none if it is left out; no answer at
all if it is there more than once. -/
def field? (members : List (String × Written)) (name : String) : Option (Option Written) :=
  match members.filter (·.1 = name) with
  | [] => some none
  | [(_, v)] => some (some v)
  | _ => none

/-- The fields of a record of the given names, in their order. -/
def fields? (names : List String) : Written → Option (List (Option Written))
  | .obj members => do
    let members ← named? members
    names.mapM (field? members)
  | .arr items =>
    if items.length ≤ names.length then
      some (items.map some ++ List.replicate (names.length - items.length) none)
    else none
  | _ => none

/-- A field that may be left out. -/
def withDefault {α : Type} (read : Written → Option α) (default : α) :
    Option Written → Option α
  | none => some default
  | some v => read v

def text? : Written → Option String
  | .str s => s
  | _ => none

def flag? : Written → Option Bool
  | .bool b => some b
  | _ => none

/-- A text or null. -/
def textOrNull? : Written → Option (Option String)
  | .str s => s.map some
  | .null => some none
  | _ => none

def argument? (v : Written) : Option HubArgument := do
  match ← fields? ["type", "required"] v with
  | [type, required] =>
    some ⟨← withDefault text? "any" type, ← withDefault flag? false required⟩
  | _ => none

def event? (v : Written) : Option HubEvent := do
  match ← fields? ["arguments", "output"] v with
  | [arguments, output] =>
    some ⟨← withDefault (map? argument?) .empty arguments, ← withDefault textOrNull? none output⟩
  | _ => none

def command? (v : Written) : Option HubCommand := do
  match ← fields? ["arguments", "output", "events"] v with
  | [arguments, output, events] =>
    some ⟨← withDefault (map? argument?) .empty arguments, ← withDefault textOrNull? none output,
      ← withDefault (map? event?) .empty events⟩
  | _ => none

def service? (v : Written) : Option HubService := do
  match ← fields? ["commands"] v with
  | [commands] => some ⟨← withDefault (map? command?) .empty commands⟩
  | _ => none

/-- A map as an object. -/
def mapJson {α : Type} (write : α → Json) (m : NameMap α) : Json :=
  .obj (m.entries.map fun (name, v) => (name, write v))

def argumentJson (a : HubArgument) : Json :=
  .obj [("type", .str a.type), ("required", .bool a.required)]

def eventJson (e : HubEvent) : Json :=
  .obj [("arguments", mapJson argumentJson e.arguments), ("output", .ofText? e.output)]

def commandJson (c : HubCommand) : Json :=
  .obj [("arguments", mapJson argumentJson c.arguments), ("output", .ofText? c.output),
    ("events", mapJson eventJson c.events)]

def serviceJson (s : HubService) : Json := .obj [("commands", mapJson commandJson s.commands)]

end HubDocument

namespace Hub

/-- The hub of a document as it is written. -/
def ofWritten? (v : Written) : Option Hub :=
  (HubDocument.map? HubDocument.service? v).map Hub.mk

/-- The hub of a document. -/
def ofJson? (v : Json) : Option Hub := ofWritten? (.ofJson v)

/-- The hub of a document's text. -/
def ofText? (s : String) : Option Hub := (Written.read? s).bind ofWritten?

/-- The document of a hub. -/
def toJson (h : Hub) : Json := HubDocument.mapJson HubDocument.serviceJson h.services

end Hub

end StoryLang
