/-
Rules: what a node of a story's tree stands for.
-/

namespace StoryLang

/-- The rule of a node. A name that is none of the known rules is a rule of its own. -/
inductive Rule where
  -- the story and its statements
  | start
  | block
  | assignment
  | serviceCall
  | mutation
  | functionCall
  | expressionStatement
  | ifBlock
  | elifBlock
  | elseBlock
  | foreachBlock
  | whileBlock
  | tryBlock
  | catchBlock
  | finallyBlock
  | functionBlock
  | whenBlock
  | returnStatement
  | breakStatement
  | continueStatement
  | throwStatement
  | importStatement
  -- parts of statements
  | arguments
  | argument
  | output
  | mutationFragment
  | parameter
  | returns
  | types
  -- values
  | binaryExpression
  | unaryExpression
  | cast
  | path
  | pathFragment
  | string
  | number
  | boolean
  | null
  | list
  | map
  | mapItem
  | other (name : String)
  deriving DecidableEq, Repr

namespace Rule

/-- The name of a rule. -/
def name : Rule → String
  | .start => "start"
  | .block => "block"
  | .assignment => "assignment"
  | .serviceCall => "service_call"
  | .mutation => "mutation"
  | .functionCall => "function_call"
  | .expressionStatement => "expression_statement"
  | .ifBlock => "if_block"
  | .elifBlock => "elif_block"
  | .elseBlock => "else_block"
  | .foreachBlock => "foreach_block"
  | .whileBlock => "while_block"
  | .tryBlock => "try_block"
  | .catchBlock => "catch_block"
  | .finallyBlock => "finally_block"
  | .functionBlock => "function_block"
  | .whenBlock => "when_block"
  | .returnStatement => "return_statement"
  | .breakStatement => "break_statement"
  | .continueStatement => "continue_statement"
  | .throwStatement => "throw_statement"
  | .importStatement => "import_statement"
  | .arguments => "arguments"
  | .argument => "argument"
  | .output => "output"
  | .mutationFragment => "mutation_fragment"
  | .parameter => "parameter"
  | .returns => "returns"
  | .types => "types"
  | .binaryExpression => "binary_expression"
  | .unaryExpression => "unary_expression"
  | .cast => "cast"
  | .path => "path"
  | .pathFragment => "path_fragment"
  | .string => "string"
  | .number => "number"
  | .boolean => "boolean"
  | .null => "null"
  | .list => "list"
  | .map => "map"
  | .mapItem => "map_item"
  | .other name => name

/-- The known rules. -/
def known : List Rule :=
  [.start, .block, .assignment, .serviceCall, .mutation, .functionCall, .expressionStatement,
    .ifBlock, .elifBlock, .elseBlock, .foreachBlock, .whileBlock, .tryBlock, .catchBlock,
    .finallyBlock, .functionBlock, .whenBlock, .returnStatement, .breakStatement,
    .continueStatement, .throwStatement, .importStatement, .arguments, .argument, .output,
    .mutationFragment, .parameter, .returns, .types, .binaryExpression, .unaryExpression, .cast,
    .path, .pathFragment, .string, .number, .boolean, .null, .list, .map, .mapItem]

/-- The rule of a name. -/
def ofName (s : String) : Rule := (known.find? (·.name = s)).getD (.other s)

/-- Statements and branches that own a block. -/
def hasBlock : Rule → Bool
  | .serviceCall | .ifBlock | .elifBlock | .elseBlock | .foreachBlock | .whileBlock | .tryBlock
  | .catchBlock | .finallyBlock | .functionBlock | .whenBlock => true
  | _ => false

/-- Statements that repeat their block. -/
def isLoop : Rule → Bool
  | .foreachBlock | .whileBlock => true
  | _ => false

/-- Calls of services, mutations and functions. -/
def isCall : Rule → Bool
  | .serviceCall | .mutation | .functionCall => true
  | _ => false

end Rule

end StoryLang
