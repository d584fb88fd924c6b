/-
Checking the arguments of calls against what is called.
-/
import StoryLang.Check.Basic

namespace StoryLang.Check

/-- An argument as it is written. -/
structure Supplied where
  name : String
  ty : Ty
  place : Position
  deriving DecidableEq, Repr

/-- Checks arguments against parameters. Every parameter is needed. -/
def arguments (callee : String) (parameters : List (String × Ty)) (supplied : List Supplied)
    (place : Position) : Check Unit := do
  for given in supplied do
    match parameters.find? (·.1 = given.name) with
    | none => report .unknownFunctionArgument [callee, given.name] (some given.place)
    | some (_, ty) =>
      if !ty.accepts given.ty then
        report .argumentType [given.name, ty.text, given.ty.text] (some given.place)
  for (name, _) in parameters do
    if !supplied.any (·.name = name) then
      report .missingFunctionArgument [callee, name] (some place)

/-- Checks the arguments of a command or an event of a service. -/
def serviceArguments (service command : String) (expected : NameMap HubArgument)
    (supplied : List Supplied) (place : Position) : Check Unit := do
  for given in supplied do
    match expected.get? given.name with
    | none => report .unknownServiceArgument [service, command, given.name] (some given.place)
    | some argument =>
      if !argument.ty.accepts given.ty then
        report .serviceArgumentType
          [given.name, service, command, argument.ty.text, given.ty.text] (some given.place)
  for (name, argument) in expected.entries do
    if argument.required && !supplied.any (·.name = name) then
      report .missingServiceArgument [service, command, name] (some place)

/-- Checks a call of a command, and gives the type of its output. A command
that has events answers with something to listen to. -/
def commandCall (e : Env) (service : String) (servicePlace : Position) (command : Option Token)
    (supplied : List Supplied) : Check Ty := do
  useService service
  match command, e.registry with
  | some command, some registry =>
    match ← service? registry service with
    | none =>
      report .unknownService [service] (some servicePlace)
      return .any
    | some known =>
      match known.commands.get? command.literal with
      | none =>
        report .unknownCommand [service, command.literal] (some command.position)
        return .any
      | some signature =>
        serviceArguments service command.literal signature.arguments supplied command.position
        if signature.events.isEmpty then return signature.outputTy
        else return .service service command.literal
  | _, _ => return .any

/-- Checks listening to an event of a command, and gives the type of its output. -/
def eventCall (e : Env) (service command : String) (event : Token) (supplied : List Supplied) :
    Check Ty := do
  match e.registry with
  | none => return .any
  | some registry =>
    match (← service? registry service).bind (·.commands.get? command) with
    | none => return .any
    | some known =>
      match known.events.get? event.literal with
      | none =>
        report .unknownEvent [service, command, event.literal] (some event.position)
        return .any
      | some signature =>
        serviceArguments service event.literal signature.arguments supplied event.position
        return signature.outputTy

/-- Checks a call of a function, and gives the type it returns. -/
def functionCall (e : Env) (name : Option Token) (supplied : List Supplied) : Check Ty := do
  match name with
  | none => return .any
  | some name =>
    match e.functions.get? name.literal with
    | none =>
      report .unknownFunction [name.literal] (some name.position)
      return .any
    | some signature =>
      arguments name.literal signature.parameters supplied name.position
      return signature.returns

/-- Checks a mutation of a value, and gives the type it makes. -/
def mutationCall (subject : Ty) (name : Option Token) (supplied : List Supplied) : Check Ty := do
  match name with
  | none => return subject
  | some name =>
    match Mutation.find? subject name.literal with
    | none =>
      report .unknownMutation [subject.text, name.literal] (some name.position)
      return .any
    | some mutation =>
      if !subject.isAny then arguments name.literal mutation.arguments supplied name.position
      return mutation.returns

end StoryLang.Check
