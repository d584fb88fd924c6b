/-
Checking statements and stories.

A block has a scope of its own, and so do the names of a `foreach`, a `catch`,
a `when` and a function together with the block they are for. An assignment
declares its variable if the name is not known yet; every other declaration
needs a name that is new to its scope.
-/
import StoryLang.Check.Value

namespace StoryLang

/-- What checking finds out about a story. -/
structure Analysis where
  diagnostics : List Diagnostic
  /-- The services the story uses, in the order of their names. -/
  services : List String
  functions : NameMap Signature
  /-- The variables of the story. -/
  scope : Scope
  deriving DecidableEq, Repr

namespace Check

/-- The names that an output lists. -/
def outputNames (parts : List Tree) : List Token :=
  match parts.find? (·.isA .output) with
  | some output => output.tokens.filter (·.kind = .name)
  | none => []

/-- Declares names, each with its type; those beyond the types are `any`. -/
def declareAll (line : Option Coord) : List Token → List Ty → Check Unit
  | [], _ => return ()
  | name :: names, tys => do
    declare name.literal (tys.headD .any) line name.position
    declareAll line names tys.tail

/-- Declares the outputs of a statement: the first has a type. -/
def declareOutput (t : Tree) (ty : Ty) : Check Unit :=
  declareAll t.line? (outputNames t.parts) [ty]

/-- Checks a node of a row, if it is there, and puts it back. -/
def nodeValue (e : Env) (i : Nat) (parts : List Tree) : Check (Option Tree × Ty) := do
  match (parts.filter Tree.isNode)[i]? with
  | none => return (none, .any)
  | some t =>
    let (t, ty) ← value e t
    return (some t, ty)

/-- Checks a condition. -/
def condition (e : Env) (t : Tree) : Check Tree := do
  let (t, ty) ← value e t
  if e.features.strictConditions && !ty.logical then
    report .conditionType [ty.text] t.position?
  return t

/-- Reports a value that does not fit a variable. -/
def assignable (target source : Ty) (place : Position) : Check Unit := do
  if !target.accepts source then
    report .assignmentType [source.text, target.text] (some place)

/-- Checks an assignment. A part of a variable has to take the value, and so
does a variable that is known; any other is declared. -/
def assignment (e : Env) (t : Tree) (parts : List Tree) : Check (List Tree) := do
  let (source, ty) ← nodeValue e 1 parts
  let parts := Tree.putNode source 1 parts
  match parts.find? Tree.isNode with
  | none => return parts
  | some path =>
    match path.firstToken? with
    | none => return parts
    | some root =>
      if path.parts.any (·.isA .pathFragment) then
        let (path, target) ← value e path
        assignable target ty root.position
        return Tree.putNode (some path) 0 parts
      else
        match ← lookup e root.literal with
        | some binding => assignable binding.ty ty root.position
        | none => declare root.literal ty t.line? root.position
        return parts

/-- The types of the names of a `foreach` over a type. -/
def iteratedTypes (source : Ty) (names : Nat) (place : Option Position) : Check (List Ty) := do
  let tys ← match source.iterated? names with
    | some tys => pure tys
    | none =>
      report .notIterable [source.text] place
      pure [.any, .any]
  if 2 < names then report .tooManyNames [source.text, "2"] place
  return tys

/-- A parameter of a function, if it has a name. -/
def parameter? (t : Tree) : Option (Token × Ty) :=
  t.firstToken?.map fun name => (name, spelledOrAny (t.find? .types))

/-- The type that a function says it returns. -/
def returnTypes (parts : List Tree) : Option Tree :=
  (parts.find? (·.isA .returns)).bind (·.find? .types)

/-- The type of what a `when` gives its outputs. -/
def listening (e : Env) (root : Token) (event : Option Token) (supplied : List Supplied) :
    Check Ty := do
  match (← lookup e root.literal).map Binding.ty with
  | some (.service service command) =>
    match event with
    | some event => eventCall e service command event supplied
    | none => return .any
  | some .any => return .any
  | some _ =>
    report .notServiceOutput [root.literal] (some root.position)
    return .any
  | none =>
    useService root.literal
    match e.registry with
    | some registry =>
      if (← service? registry root.literal).isNone then
        report .unknownService [root.literal] (some root.position)
    | none => pure ()
    return .any

/-- Checks the value of a `return` against what its function returns. -/
def returned (e : Env) (parts : List Tree) : Check (List Tree) := do
  let (given, ty) ← nodeValue e 0 parts
  match given, e.body with
  | some t, some body =>
    if !body.returns.accepts ty then
      report .returnType [body.name, body.returns.text, ty.text] t.position?
  | _, _ => pure ()
  return Tree.putNode given 0 parts

/-- Whether what comes after a statement can be reached. -/
inductive Flow where
  | open
  /-- Not since a statement with that keyword. -/
  | stopped (keyword : String)
  /-- Not, and that has been reported. -/
  | reported

/-- What comes after a statement. -/
def Flow.after (flow : Flow) (t : Tree) : Flow :=
  match flow, t.rule? with
  | .open, some .returnStatement | .open, some .breakStatement
  | .open, some .continueStatement | .open, some .throwStatement =>
    match t.firstToken? with
    | some word => .stopped word.literal
    | none => .open
  | flow, _ => flow

/-- Reports a statement that cannot be reached, the first time. -/
def Flow.enter (flow : Flow) (t : Tree) : Check Flow := do
  match flow with
  | .stopped keyword =>
    report .unreachableCode [keyword] t.position?
    return .reported
  | flow => return flow

mutual

/-- Checks a statement. -/
def statement (e : Env) : Tree → Check Tree
  | .token t => return .token t
  | .node .assignment line ps => do
    return .node .assignment line (← assignment e (.node .assignment line ps) ps)
  | .node .serviceCall line ps => do
    let (t, ty) ← value e (.node .serviceCall line ps)
    declareOutput t ty
    let body ← blockOf e ps
    match t with
    | .node rule line ps => return .node rule line (Tree.putFirst .block body ps)
    | t => return t
  | .node .mutation line ps => do
    let (t, ty) ← value e (.node .mutation line ps)
    declareOutput t ty
    let body ← blockOf e ps
    match t with
    | .node rule line ps => return .node rule line (Tree.putFirst .block body ps)
    | t => return t
  | .node .functionCall line ps => do return (← value e (.node .functionCall line ps)).1
  | .node .expressionStatement line ps => do
    return (← value e (.node .expressionStatement line ps)).1
  | .node .ifBlock line ps => do return .node .ifBlock line (← branches e ps)
  | .node .whileBlock line ps => do
    let first ← match ps.find? Tree.isNode with
      | some t => some <$> condition e t
      | none => pure none
    let body ← blockOf e ps
    return .node .whileBlock line (Tree.putFirst .block body (Tree.putNode first 0 ps))
  | .node .foreachBlock line ps => do
    let (source, ty) ← nodeValue e 0 ps
    let names := outputNames ps
    let tys ← iteratedTypes ty names.length (source.bind (·.position?))
    push
    declareAll (Tree.line? (.node .foreachBlock line ps)) names tys
    let body ← bodyOf e ps
    pop
    return .node .foreachBlock line (Tree.putFirst .block body (Tree.putNode source 0 ps))
  | .node .tryBlock line ps => do return .node .tryBlock line (← handlers e ps)
  | .node .functionBlock line ps => do
    match nameOf? ps with
    | none => return .node .functionBlock line ps
    | some name =>
      push
      let body : Body := ⟨name.literal, spelledOrAny (returnTypes ps), ← topNumber⟩
      let inside := { e with body := some body }
      let parameters := (ps.filter (·.isA .parameter)).filterMap parameter?
      declareAll (Tree.line? (.node .functionBlock line ps)) (parameters.map (·.1))
        (parameters.map (·.2))
      let block ← bodyOf inside ps
      pop
      return .node .functionBlock line (Tree.putFirst .block block ps)
  | .node .whenBlock line ps => do
    let (given, supplied) ← argumentsOf e ps
    let all := Tree.putFirst .arguments given ps
    match (ps.find? (·.isA .path)).bind Tree.firstToken? with
    | none => return .node .whenBlock line all
    | some root =>
      let ty ← listening e root (nameOf? ps) supplied
      push
      declareOutput (.node .whenBlock line ps) ty
      let body ← bodyOf e ps
      pop
      return .node .whenBlock line (Tree.putFirst .block body all)
  | .node .returnStatement line ps => do return .node .returnStatement line (← returned e ps)
  | .node .throwStatement line ps => do
    let (thrown, _) ← nodeValue e 0 ps
    return .node .throwStatement line (Tree.putNode thrown 0 ps)
  | .node .importStatement line ps => do
    match nameOf? ps with
    | none => return .node .importStatement line ps
    | some name =>
      declare name.literal .anyObject (Tree.line? (.node .importStatement line ps)) name.position
      return .node .importStatement line ps
  | t => return t

/-- Checks statements one after the other. -/
def statements (e : Env) (flow : Flow) : List Tree → Check (List Tree)
  | [] => return []
  | .token t :: ts => do return .token t :: (← statements e flow ts)
  | .node r l ps :: ts => do
    let flow ← flow.enter (.node r l ps)
    let t ← statement e (.node r l ps)
    return t :: (← statements e (flow.after t) ts)

/-- Checks the statements of the first block in a row, if there is one. -/
def bodyOf (e : Env) : List Tree → Check (Option Tree)
  | [] => return none
  | .node .block l ps :: _ => do return some (.node .block l (← statements e .open ps))
  | _ :: ts => bodyOf e ts

/-- The same, in a scope of its own. -/
def blockOf (e : Env) : List Tree → Check (Option Tree)
  | [] => return none
  | .node .block l ps :: _ => do
    return some (.node .block l (← inOwnScope (statements e .open ps)))
  | _ :: ts => blockOf e ts

/-- Checks the parts of an `if`: conditions, blocks and branches. -/
def branches (e : Env) : List Tree → Check (List Tree)
  | [] => return []
  | .token t :: ts => do return .token t :: (← branches e ts)
  | .node .block l ps :: ts => do
    let body ← inOwnScope (statements e .open ps)
    return .node .block l body :: (← branches e ts)
  | .node .elifBlock l ps :: ts => do
    let inside ← branch e ps
    return .node .elifBlock l inside :: (← branches e ts)
  | .node .elseBlock l ps :: ts => do
    let body ← blockOf e ps
    return .node .elseBlock l (Tree.putFirst .block body ps) :: (← branches e ts)
  | t :: ts => do
    let first ← condition e t
    return first :: (← branches e ts)

/-- Checks the parts of an `else if`: its condition and its block. -/
def branch (e : Env) : List Tree → Check (List Tree)
  | [] => return []
  | .token t :: ts => do return .token t :: (← branch e ts)
  | .node .block l ps :: ts => do
    let body ← inOwnScope (statements e .open ps)
    return .node .block l body :: (← branch e ts)
  | t :: ts => do
    let first ← condition e t
    return first :: (← branch e ts)

/-- Checks the parts of a `try`: its block and its handlers. -/
def handlers (e : Env) : List Tree → Check (List Tree)
  | [] => return []
  | .node .block l ps :: ts => do
    let body ← inOwnScope (statements e .open ps)
    return .node .block l body :: (← handlers e ts)
  | .node .catchBlock l ps :: ts => do
    push
    declareOutput (.node .catchBlock l ps) .anyObject
    let body ← bodyOf e ps
    pop
    return .node .catchBlock l (Tree.putFirst .block body ps) :: (← handlers e ts)
  | .node .finallyBlock l ps :: ts => do
    let body ← blockOf e ps
    return .node .finallyBlock l (Tree.putFirst .block body ps) :: (← handlers e ts)
  | t :: ts => do return t :: (← handlers e ts)

end

/-- Notes a function by its declaration. The first one of a name counts. -/
def signature (functions : NameMap Signature) (t : Tree) : Check (NameMap Signature) := do
  match t.token? .name with
  | none => return functions
  | some name =>
    let parameters ← (t.findAll .parameter).mapM fun p => do
      return (((p.firstToken?.map (·.literal)).getD ""), ← writtenType (p.find? .types))
    let returns ← match t.find? .returns with
      | some returns => writtenType (returns.find? .types)
      | none => pure .any
    match functions.get? name.literal with
    | some existing =>
      report .alreadyDeclared [name.literal, existing.line.text] (some name.position)
      return functions
    | none =>
      let line := t.line?.getD (.ofLine name.line)
      return functions.insert name.literal ⟨name.literal, parameters, returns, line⟩

/-- Notes all functions of a tree, so that they can be called before they are declared. -/
def signatures (t : Tree) : Check (NameMap Signature) :=
  (t.walk.filter (·.isA .functionBlock)).foldlM signature .empty

/-- Checks a tree. The names of the story are in a scope on top of the root. -/
def tree (features : Features) (registry : Option Registry) (t : Tree) :
    Check (Tree × NameMap Signature) := do
  let functions ← signatures t
  push
  let e : Env := { features, registry, functions, body := none }
  match t with
  | .token t => return (.token t, functions)
  | .node rule line ps => return (.node rule line (← statements e .open ps), functions)

/-- Checks a story and gives back its tree with what was found out. -/
def story (features : Features) (registry : Option Registry) (root : Scope) (t : Tree) :
    Except Fault (Tree × Analysis) := do
  let ((t, functions), s) ←
    tree features registry t { scopes := .ofRoot root, reports := [], services := .empty }
  return (t, { diagnostics := s.reports.reverse, services := s.services.names, functions
               scope := s.scopes.top })

end Check

end StoryLang
