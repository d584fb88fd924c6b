/-
The catalogue of everything the compiler reports.

Each code stands for one cause and has a number that is never used for
another cause, a title, the stage it belongs to, a severity and a message
template. A place in a template is filled by what the report is about.
-/
import StoryLang.Text.Template

namespace StoryLang

/-- The stage of compilation a report belongs to. -/
inductive Category where
  | ofSyntax
  | ofMeaning
  | ofFiles
  | internal
  deriving DecidableEq, Repr

/-- How the heading of an error names its stage. -/
def Category.description : Category → String
  | .ofSyntax => "syntax error"
  | .ofMeaning => "semantic error"
  | .ofFiles => "resource error"
  | .internal => "internal error"

/-- Whether a report stops the compilation or only asks for attention. -/
inductive Severity where
  | error
  | warning
  | deprecation
  deriving DecidableEq, Repr

/-- The word a heading starts with. -/
def Severity.label : Severity → String
  | .error => "Error"
  | .warning => "Warning"
  | .deprecation => "Deprecation"

/-- What the compiler reports, one constructor for each cause. -/
inductive Code where
  | internal
  | serviceNameDot
  | argumentWithoutService
  | returnOutsideFunction
  | variableSlash
  | variableDash
  | assignmentWithoutValue
  | misspeltFunction
  | misspeltImport
  | misspeltImportAlias
  | unquotedImport
  | noOpeningQuote
  | noClosingQuote
  | listTrailingComma
  | listNotOpened
  | listNotClosed
  | objectNotOpened
  | objectNotClosed
  | argumentWithoutColon
  | reservedFunction
  | reservedIf
  | reservedElse
  | reservedForeach
  | reservedReturn
  | reservedReturns
  | reservedTry
  | reservedCatch
  | reservedFinally
  | reservedWhen
  | reservedAs
  | reservedImport
  | reservedWhile
  | reservedThrow
  | futureAsync
  | futureStory
  | futureAssert
  | futureCalled
  | futureMock
  | chainWithoutMutation
  | noOperator
  | invalidCharacter
  | alreadyDeclared
  | unexpectedToken
  | breakOutsideLoop
  | unnecessaryColon
  | fileNotFound
  | unindentMismatch
  | interpolationNotClosed
  | commentNotClosed
  | continueOutsideLoop
  | invalidFeature
  | integerTooLarge
  | callInCondition
  | unknownVariable
  | assignmentType
  | binaryOperands
  | unaryOperand
  | conditionType
  | notIterable
  | tooManyNames
  | unknownFunction
  | unknownFunctionArgument
  | missingFunctionArgument
  | argumentType
  | returnType
  | unknownMutation
  | invalidCast
  | indexType
  | repeatedArgument
  | unknownType
  | unknownService
  | unknownCommand
  | unknownServiceArgument
  | missingServiceArgument
  | serviceArgumentType
  | unknownEvent
  | notServiceOutput
  | unreachableCode
  | hashComment
  deriving DecidableEq, Repr

namespace Code

/-- What the catalogue says of a code. -/
structure Definition where
  number : Nat
  title : String
  category : Category
  severity : Severity
  template : String
  deriving DecidableEq, Repr

/-- An error in how a story is written. -/
def ofSyntax (number : Nat) (title template : String) : Definition :=
  ⟨number, title, .ofSyntax, .error, template⟩

/-- An error in what a story means. -/
def ofMeaning (number : Nat) (title template : String) : Definition :=
  ⟨number, title, .ofMeaning, .error, template⟩

/-- The catalogue. -/
def definition : Code → Definition
  | .internal => ⟨1, "internal error", .internal, .error,
      "Internal error occurred"⟩
  | .serviceNameDot => ofSyntax 2 "service name" "A service name can't contain `.`"
  | .argumentWithoutService =>
    ofSyntax 3 "arguments without service"
      "You have defined an argument, but not a service"
  | .returnOutsideFunction =>
    ofSyntax 4 "return outside function"
      "`return` is allowed only inside functions"
  | .variableSlash => ofSyntax 5 "variable slash" "A variable name can't contain `/`"
  | .variableDash => ofSyntax 6 "variable dash" "A variable name can't contain `-`"
  | .assignmentWithoutValue => ofSyntax 7 "incomplete assignment" "Missing value after `=`"
  | .misspeltFunction => ofSyntax 8 "misspelt function" "You have misspelt `function`"
  | .misspeltImport => ofSyntax 9 "misspelt import" "You have misspelt `import`"
  | .misspeltImportAlias =>
    ofSyntax 10 "misspelt import alias"
      "You have misspelt `as` in an import statement"
  | .unquotedImport => ofSyntax 11 "unquoted import" "The imported filename must be in quotes"
  | .noOpeningQuote => ofSyntax 12 "opening quote" "Missing opening quote for string"
  | .noClosingQuote => ofSyntax 13 "closing quote" "Missing closing quote for string"
  | .listTrailingComma => ofSyntax 14 "list trailing comma" "Trailing comma in list"
  | .listNotOpened => ofSyntax 15 "list opening bracket" "Missing opening bracket for list"
  | .listNotClosed => ofSyntax 16 "list closing bracket" "Missing closing bracket for list"
  | .objectNotOpened => ofSyntax 17 "object opening bracket" "Missing opening bracket for object"
  | .objectNotClosed => ofSyntax 18 "object closing bracket" "Missing closing bracket for object"
  | .argumentWithoutColon =>
    ofSyntax 19 "service argument colon"
      "Missing colon in service argument"
  | .reservedFunction => ofSyntax 20 "reserved keyword" "`function` is a reserved keyword"
  | .reservedIf => ofSyntax 21 "reserved keyword" "`if` is a reserved keyword"
  | .reservedElse => ofSyntax 22 "reserved keyword" "`else` is a reserved keyword"
  | .reservedForeach => ofSyntax 23 "reserved keyword" "`foreach` is a reserved keyword"
  | .reservedReturn => ofSyntax 24 "reserved keyword" "`return` is a reserved keyword"
  | .reservedReturns => ofSyntax 25 "reserved keyword" "`returns` is a reserved keyword"
  | .reservedTry => ofSyntax 26 "reserved keyword" "`try` is a reserved keyword"
  | .reservedCatch => ofSyntax 27 "reserved keyword" "`catch` is a reserved keyword"
  | .reservedFinally => ofSyntax 28 "reserved keyword" "`finally` is a reserved keyword"
  | .reservedWhen => ofSyntax 29 "reserved keyword" "`when` is a reserved keyword"
  | .reservedAs => ofSyntax 30 "reserved keyword" "`as` is a reserved keyword"
  | .reservedImport => ofSyntax 31 "reserved keyword" "`import` is a reserved keyword"
  | .reservedWhile => ofSyntax 32 "reserved keyword" "`while` is a reserved keyword"
  | .reservedThrow => ofSyntax 33 "reserved keyword" "`throw` is a reserved keyword"
  | .futureAsync => ofSyntax 34 "future keyword" "`async` is reserved for future use"
  | .futureStory => ofSyntax 35 "future keyword" "`story` is reserved for future use"
  | .futureAssert => ofSyntax 36 "future keyword" "`assert` is reserved for future use"
  | .futureCalled => ofSyntax 37 "future keyword" "`called` is reserved for future use"
  | .futureMock => ofSyntax 38 "future keyword" "`mock` is reserved for future use"
  | .chainWithoutMutation =>
    ofSyntax 39 "chained mutation"
      "You have defined a chained mutation, but not a mutation"
  | .noOperator => ofSyntax 40 "no operator" "No operator provided"
  | .invalidCharacter => ofSyntax 41 "invalid character" "`\x7b\x7d` is not allowed here"
  | .alreadyDeclared =>
    ofMeaning 42 "already declared"
      "`\x7b\x7d` has already been declared at line \x7b\x7d"
  | .unexpectedToken =>
    ofSyntax 43 "unexpected token"
      "`\x7b\x7d` is not allowed here. Allowed: \x7b\x7d"
  | .breakOutsideLoop => ofSyntax 44 "break outside loop" "`break` is allowed only inside loops"
  | .unnecessaryColon =>
    ofSyntax 45 "unnecessary colon"
      "There is an unnecessary colon at the end of the line"
  | .fileNotFound => ⟨46, "file not found", .ofFiles, .error,
      "File `\x7b\x7d` not found at `\x7b\x7d`"⟩
  | .unindentMismatch =>
    ofSyntax 47 "indentation"
      "Unindent does not match any outer indentation level"
  | .interpolationNotClosed =>
    ofSyntax 48 "interpolation"
      "Missing closing `\x7d` in string interpolation"
  | .commentNotClosed => ofSyntax 49 "comment" "Missing closing `*/` for comment"
  | .continueOutsideLoop =>
    ofSyntax 50 "continue outside loop"
      "`continue` is allowed only inside loops"
  | .invalidFeature => ofSyntax 51 "feature" "Invalid feature setting: \x7b\x7d"
  | .integerTooLarge => ofSyntax 52 "number" "Integer `\x7b\x7d` is too large"
  | .callInCondition =>
    ofSyntax 53 "call in condition"
      "Calls are not allowed in a `\x7b\x7d` condition. Assign the result to a variable first"
  | .unknownVariable => ofMeaning 100 "undefined variable" "Unknown variable `\x7b\x7d`"
  | .assignmentType =>
    ofMeaning 101 "assignment type"
      "Can't assign `\x7b\x7d` to a variable of type `\x7b\x7d`"
  | .binaryOperands =>
    ofMeaning 102 "binary operand"
      "`\x7b\x7d` can't be applied to `\x7b\x7d` and `\x7b\x7d`"
  | .unaryOperand => ofMeaning 103 "unary operand" "`\x7b\x7d` can't be applied to `\x7b\x7d`"
  | .conditionType =>
    ofMeaning 104 "condition type"
      "A condition must be `boolean`, found `\x7b\x7d`"
  | .notIterable => ofMeaning 105 "not iterable" "`\x7b\x7d` can't be iterated"
  | .tooManyNames =>
    ofMeaning 106 "foreach names"
      "Iterating over `\x7b\x7d` gives at most \x7b\x7d names"
  | .unknownFunction => ofMeaning 107 "unknown function" "Function `\x7b\x7d` does not exist"
  | .unknownFunctionArgument =>
    ofMeaning 108 "function argument"
      "Function `\x7b\x7d` has no argument `\x7b\x7d`"
  | .missingFunctionArgument =>
    ofMeaning 109 "function argument"
      "Function `\x7b\x7d` requires argument `\x7b\x7d`"
  | .argumentType =>
    ofMeaning 110 "argument type"
      "Argument `\x7b\x7d` must be `\x7b\x7d`, found `\x7b\x7d`"
  | .returnType =>
    ofMeaning 111 "return type"
      "Function `\x7b\x7d` returns `\x7b\x7d`, found `\x7b\x7d`"
  | .unknownMutation => ofMeaning 112 "unknown mutation" "`\x7b\x7d` has no mutation `\x7b\x7d`"
  | .invalidCast => ofMeaning 113 "invalid cast" "`\x7b\x7d` can't be converted to `\x7b\x7d`"
  | .indexType => ofMeaning 114 "index type" "`\x7b\x7d` can't be indexed with `\x7b\x7d`"
  | .repeatedArgument =>
    ofMeaning 115 "duplicate argument"
      "Argument `\x7b\x7d` is given more than once"
  | .unknownType => ofMeaning 116 "unknown type" "Unknown type `\x7b\x7d`"
  | .unknownService =>
    ofMeaning 139 "service not found"
      "Service `\x7b\x7d` does not exist on the hub."
  | .unknownCommand =>
    ofMeaning 140 "service command"
      "Service `\x7b\x7d` has no command `\x7b\x7d`."
  | .unknownServiceArgument =>
    ofMeaning 141 "service argument"
      "`\x7b\x7d \x7b\x7d` has no argument `\x7b\x7d`."
  | .missingServiceArgument =>
    ofMeaning 142 "service argument"
      "`\x7b\x7d \x7b\x7d` requires argument `\x7b\x7d`."
  | .serviceArgumentType =>
    ofMeaning 143 "service argument type"
      "Argument `\x7b\x7d` of `\x7b\x7d \x7b\x7d` must be `\x7b\x7d`, found `\x7b\x7d`."
  | .unknownEvent => ofMeaning 144 "service event" "`\x7b\x7d \x7b\x7d` has no event `\x7b\x7d`."
  | .notServiceOutput =>
    ofMeaning 145 "service output"
      "`when` needs a service output, but `\x7b\x7d` is not one."
  | .unreachableCode => ⟨150, "unreachable code", .ofMeaning, .warning,
      "Code after `\x7b\x7d` is never run"⟩
  | .hashComment => ⟨151, "hash comment", .ofSyntax, .deprecation,
      "`#` comments are deprecated, use `//` instead"⟩

/-- Every code, in the order of the catalogue. -/
def all : List Code :=
  [.internal, .serviceNameDot, .argumentWithoutService, .returnOutsideFunction, .variableSlash,
    .variableDash, .assignmentWithoutValue, .misspeltFunction, .misspeltImport,
    .misspeltImportAlias, .unquotedImport, .noOpeningQuote, .noClosingQuote, .listTrailingComma,
    .listNotOpened, .listNotClosed, .objectNotOpened, .objectNotClosed, .argumentWithoutColon,
    .reservedFunction, .reservedIf, .reservedElse, .reservedForeach, .reservedReturn,
    .reservedReturns, .reservedTry, .reservedCatch, .reservedFinally, .reservedWhen, .reservedAs,
    .reservedImport, .reservedWhile, .reservedThrow, .futureAsync, .futureStory, .futureAssert,
    .futureCalled, .futureMock, .chainWithoutMutation, .noOperator, .invalidCharacter,
    .alreadyDeclared, .unexpectedToken, .breakOutsideLoop, .unnecessaryColon, .fileNotFound,
    .unindentMismatch, .interpolationNotClosed, .commentNotClosed, .continueOutsideLoop,
    .invalidFeature, .integerTooLarge, .callInCondition, .unknownVariable, .assignmentType,
    .binaryOperands, .unaryOperand, .conditionType, .notIterable, .tooManyNames, .unknownFunction,
    .unknownFunctionArgument, .missingFunctionArgument, .argumentType, .returnType,
    .unknownMutation, .invalidCast, .indexType, .repeatedArgument, .unknownType, .unknownService,
    .unknownCommand, .unknownServiceArgument, .missingServiceArgument, .serviceArgumentType,
    .unknownEvent, .notServiceOutput, .unreachableCode, .hashComment]

/-- A number with zeros in front up to four digits. -/
def fourDigits (n : Nat) : String :=
  let ds := Nat.toDigits 10 n
  String.ofList (List.replicate (4 - ds.length) '0' ++ ds)

/-- How a code is written: an `E` and its number. -/
def name (c : Code) : String := "E" ++ fourDigits c.definition.number

/-- The code written like that. -/
def ofName? (s : String) : Option Code := all.find? (·.name = s)

theorem mem_all (c : Code) : c ∈ all := by cases c <;> decide

end Code

end StoryLang
