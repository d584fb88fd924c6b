/-
Hubs: what services there are, and what their commands and events take and give.

Types are kept as they are written; one that cannot be read counts as `any`.
A command with events answers with a value that `when` can listen to.
-/
import StoryLang.Text.Names
import StoryLang.Ty.Reader

namespace StoryLang

/-- An argument of a command or an event. -/
structure HubArgument where
  type : String
  required : Bool
  deriving DecidableEq, Repr

/-- An event of a command. -/
structure HubEvent where
  arguments : NameMap HubArgument
  output : Option String
  deriving DecidableEq, Repr

/-- A command of a service. -/
structure HubCommand where
  arguments : NameMap HubArgument
  output : Option String
  events : NameMap HubEvent
  deriving DecidableEq, Repr

/-- A service. -/
structure HubService where
  commands : NameMap HubCommand
  deriving DecidableEq, Repr

/-- The services of a hub. -/
structure Hub where
  services : NameMap HubService
  deriving DecidableEq, Repr

/-- The type of an argument. -/
def HubArgument.ty (a : HubArgument) : Ty := (Ty.ofText? a.type).getD .any

/-- The type of an output. -/
def outputTy (output : Option String) : Ty := (output.bind Ty.ofText?).getD .any

def HubEvent.outputTy (e : HubEvent) : Ty := StoryLang.outputTy e.output

def HubCommand.outputTy (c : HubCommand) : Ty := StoryLang.outputTy c.output

namespace Hub

def empty : Hub := ⟨.empty⟩

/-- The service of that name. -/
def service? (h : Hub) (name : String) : Option HubService := h.services.get? name

/-- The hub with a command, which replaces one of the same name. -/
def insertCommand (h : Hub) (service command : String) (c : HubCommand) : Hub :=
  let commands := ((h.service? service).map (·.commands)).getD .empty
  ⟨h.services.insert service ⟨commands.insert command c⟩⟩

end Hub

/-- What the compiler asks about services: a hub, or something that fails
whenever it is asked. -/
inductive Registry where
  | hub (h : Hub)
  | failing
  deriving DecidableEq, Repr

end StoryLang
