/-
The types of values.

What is written like a call of a service is a mutation if it names a variable
that does not hold the output of a service. Which of the two it is shows only
here, so finding the type of a value gives the value back, with such calls
turned into mutations.
-/
import StoryLang.Check.Call

namespace StoryLang.Check

/-- The tokens of a row of trees. -/
def tokensOf (ts : List Tree) : List Token := ts.filterMap Tree.asToken?

/-- The first name among the parts of a node. -/
def nameOf? (ts : List Tree) : Option Token := (tokensOf ts).find? (·.kind = .name)

/-- What of a call goes into the link of a mutation: its tokens and arguments. -/
def inLink (t : Tree) : Bool := !t.isNode || t.isA .arguments

/-- The parts of a mutation made from the parts of a call. The first part is
the subject; outputs and blocks stay behind the link. -/
def asMutation (subject : Tree) (rest : List Tree) : List Tree :=
  subject :: .of .mutationFragment (rest.filter inLink) :: rest.filter (!inLink ·)

/-- The type of a literal number. -/
def numberType (parts : List Tree) : Ty :=
  match parts with
  | [.token t] => if t.kind = .float then .float else .int
  | _ => .int

/-- A type that takes all the types of a row, as far as there is one. -/
def commonOf : List Ty → Ty
  | [] => .any
  | ty :: tys => tys.foldl Ty.common ty

/-- The type of a map from the types of its entries. -/
def mapType (entries : List (Ty × Ty)) : Ty :=
  .map (commonOf (entries.map (·.1))) (commonOf (entries.map (·.2)))

/-- The type of an operation between operands. -/
def betweenType (parts : List Tree) (operands : List Ty) : Check Ty := do
  match tokensOf parts with
  | [] => return .any
  | operator :: _ =>
    let left := operands.getD 0 .any
    let right := operands.getD 1 .any
    match Ty.between? operator.kind left right with
    | some ty => return ty
    | none =>
      report .binaryOperands [operator.literal, left.text, right.text] (some operator.position)
      return .any

/-- The type of an operation before an operand. -/
def beforeType (parts : List Tree) (operands : List Ty) : Check Ty := do
  match tokensOf parts with
  | [] => return .any
  | operator :: _ =>
    let operand := operands.getD 0 .any
    match Ty.before? operator.kind operand with
    | some ty => return ty
    | none =>
      report .unaryOperand [operator.literal, operand.text] (some operator.position)
      return .any

/-- The type of a cast. -/
def castType (parts : List Tree) (operands : List Ty) : Check Ty := do
  let source := operands.getD 0 .any
  let target ← writtenType (parts.find? (·.isA .types))
  if !source.castsTo target then
    report .invalidCast [source.text, target.text]
      ((Tree.firstTokenOf? parts).map (·.position))
  return target

/-- The type of a field of a value. -/
def fieldType (subject : Ty) (name : Token) : Check Ty := do
  match subject.field? name.literal with
  | some ty => return ty
  | none =>
    report .indexType [subject.text, name.literal] (some name.position)
    return .any

/-- The type of what an index picks from a value. -/
def indexType (subject index : Ty) (place : Option Position) : Check Ty := do
  match subject.indexed? index with
  | some ty => return ty
  | none =>
    report .indexType [subject.text, index.text] place
    return .any

mutual

/-- The type of a value, and the value. -/
def value (e : Env) : Tree → Check (Tree × Ty)
  | .token t => return (.token t, .any)
  | .node .number line ps => return (.node .number line ps, numberType ps)
  | .node .string line ps => return (.node .string line ps, .string)
  | .node .boolean line ps => return (.node .boolean line ps, .boolean)
  | .node .null line ps => return (.node .null line ps, .null)
  | .node .list line ps => do
    let (ps, tys) ← firsts e ps.length ps
    return (.node .list line ps, .list (commonOf tys))
  | .node .map line ps => do
    let (ps, tys) ← entries e ps
    return (.node .map line ps, mapType tys)
  | .node .path line ps => do
    match Tree.firstTokenOf? ps with
    | none => return (.node .path line ps, .any)
    | some root =>
      match ← lookup e root.literal with
      | none =>
        report .unknownVariable [root.literal] (some root.position)
        return (.node .path line ps, .any)
      | some binding =>
        let (ps, ty) ← fragments e binding.ty ps
        return (.node .path line ps, ty)
  | .node .binaryExpression line ps => do
    let (ps, tys) ← firsts e 2 ps
    return (.node .binaryExpression line ps, ← betweenType ps tys)
  | .node .unaryExpression line ps => do
    let (ps, tys) ← firsts e 1 ps
    return (.node .unaryExpression line ps, ← beforeType ps tys)
  | .node .cast line ps => do
    let (ps, tys) ← firsts e 1 ps
    return (.node .cast line ps, ← castType ps tys)
  | .node .serviceCall line ps => do
    match ps.find? (·.isA .path) with
    | none => return (.node .serviceCall line ps, .any)
    | some path =>
      match path.firstToken? with
      | none => return (.node .serviceCall line ps, .any)
      | some root =>
        let dotted := path.parts.any (·.isA .pathFragment)
        match (← lookup e root.literal).map (·.ty) with
        | none =>
          if dotted then
            report .serviceNameDot [] (some root.position)
            let (given, _) ← argumentsOf e ps
            return (.node .serviceCall line (Tree.putFirst .arguments given ps), .any)
          else
            let (given, supplied) ← argumentsOf e ps
            let ty ← commandCall e root.literal root.position (nameOf? ps) supplied
            return (.node .serviceCall line (Tree.putFirst .arguments given ps), ty)
        | some ty =>
          match ty, dotted with
          | .service _ _, false =>
            let (given, _) ← argumentsOf e ps
            return (.node .serviceCall line (Tree.putFirst .arguments given ps), .any)
          | _, _ =>
            let (ps, ty) ← callAsMutation e ps
            return (.node .mutation line ps, ty)
  | .node .mutation line ps => do
    let (ps, ty) ← mutation e ps
    return (.node .mutation line ps, ty)
  | .node .functionCall line ps => do
    let (given, supplied) ← argumentsOf e ps
    let ty ← functionCall e (nameOf? ps) supplied
    return (.node .functionCall line (Tree.putFirst .arguments given ps), ty)
  | .node .expressionStatement line ps => do
    let (ps, tys) ← firsts e 1 ps
    return (.node .expressionStatement line ps, tys.getD 0 .any)
  | t => return (t, .any)

/-- The types of the first nodes of a row, at most `n` of them. -/
def firsts (e : Env) : Nat → List Tree → Check (List Tree × List Ty)
  | _, [] => return ([], [])
  | n, .token t :: ts => do
    let (ts, tys) ← firsts e n ts
    return (.token t :: ts, tys)
  | 0, t :: ts => return (t :: ts, [])
  | n + 1, .node r l ps :: ts => do
    let (t, ty) ← value e (.node r l ps)
    let (ts, tys) ← firsts e n ts
    return (t :: ts, ty :: tys)

/-- The types of the keys and values of a map. -/
def entries (e : Env) : List Tree → Check (List Tree × List (Ty × Ty))
  | [] => return ([], [])
  | .token t :: ts => do
    let (ts, tys) ← entries e ts
    return (.token t :: ts, tys)
  | .node r l ps :: ts => do
    let (ps, tys) ← firsts e 2 ps
    let (ts, rest) ← entries e ts
    return (.node r l ps :: ts, (tys.getD 0 .any, tys.getD 1 .any) :: rest)

/-- The type of what the fragments of a path lead to, from a type on. -/
def fragments (e : Env) (ty : Ty) : List Tree → Check (List Tree × Ty)
  | [] => return ([], ty)
  | .token t :: ts => do
    let (ts, ty) ← fragments e ty ts
    return (.token t :: ts, ty)
  | .node r l ps :: ts => do
    if (tokensOf ps).any (·.kind = .symbol .dot) then
      let ty ← match nameOf? ps with
        | none => pure ty
        | some name => fieldType ty name
      let (ts, ty) ← fragments e ty ts
      return (.node r l ps :: ts, ty)
    else
      let place := (Tree.firstTokenOf? ps).map (·.position)
      let (ps, tys) ← firsts e 1 ps
      let ty ← indexType ty (tys.getD 0 .any) place
      let (ts, ty) ← fragments e ty ts
      return (.node r l ps :: ts, ty)

/-- The arguments in a row of trees, which belong to the first node for them,
and that node. -/
def argumentsOf (e : Env) : List Tree → Check (Option Tree × List Supplied)
  | [] => return (none, [])
  | .node .arguments l ps :: _ => do
    let (ps, supplied) ← suppliedBy e [] ps
    return (some (.node .arguments l ps), supplied)
  | _ :: ts => argumentsOf e ts

/-- The arguments that are written. A name that is written again is reported. -/
def suppliedBy (e : Env) (seen : List String) : List Tree → Check (List Tree × List Supplied)
  | [] => return ([], [])
  | .token t :: ts => do
    let (ts, supplied) ← suppliedBy e seen ts
    return (.token t :: ts, supplied)
  | .node r l ps :: ts => do
    match Tree.firstTokenOf? ps with
    | none =>
      let (ts, supplied) ← suppliedBy e seen ts
      return (.node r l ps :: ts, supplied)
    | some name =>
      if seen.contains name.literal then
        report .repeatedArgument [name.literal] (some name.position)
      let (ps, tys) ← firsts e 1 ps
      let (ts, supplied) ← suppliedBy e (name.literal :: seen) ts
      return (.node r l ps :: ts, ⟨name.literal, tys.getD 0 .any, name.position⟩ :: supplied)

/-- The type of a mutation: its first node is the subject. -/
def mutation (e : Env) : List Tree → Check (List Tree × Ty)
  | [] => return ([], .any)
  | .token t :: ts => do
    let (ts, ty) ← mutation e ts
    return (.token t :: ts, ty)
  | .node r l ps :: ts => do
    let (t, ty) ← value e (.node r l ps)
    let (ts, ty) ← links e ty ts
    return (t :: ts, ty)

/-- The type that the links of a mutation make of a type, one after the other. -/
def links (e : Env) (ty : Ty) : List Tree → Check (List Tree × Ty)
  | [] => return ([], ty)
  | .node .mutationFragment l ps :: ts => do
    let (given, supplied) ← argumentsOf e ps
    let ty ← mutationCall ty (nameOf? ps) supplied
    let (ts, ty) ← links e ty ts
    return (.node .mutationFragment l (Tree.putFirst .arguments given ps) :: ts, ty)
  | t :: ts => do
    let (ts, ty) ← links e ty ts
    return (t :: ts, ty)

/-- The type of a mutation that is written like a call, and its parts as a mutation. -/
def callAsMutation (e : Env) : List Tree → Check (List Tree × Ty)
  | [] => return ([], .any)
  | .token t :: ts => do
    let (ts, ty) ← links e .any ts
    return (asMutation (.token t) ts, ty)
  | .node r l ps :: ts => do
    let (subject, ty) ← value e (.node r l ps)
    let (given, supplied) ← argumentsOf e ts
    let ty ← mutationCall ty (nameOf? ts) supplied
    let (rest, ty) ← links e ty ts
    return (asMutation subject (Tree.putFirst .arguments given rest), ty)

end

end StoryLang.Check
