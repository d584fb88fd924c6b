/-
The language as a relation: which runs of tokens spell which trees.

`Derives g p ts trees` says that the tokens `ts`, all of them and in this
order, can be read as the trees `trees` of the phrase `p`. The relation knows
nothing of cursors, bounds and errors, and it does not say which of several
readings the reader prefers: operators and casts may group in any way. What
the reader returns it derives (`Reading`), so whatever holds of every
derivation holds of every tree that was read.
-/
import StoryLang.Proofs.Grammar.Declared
import StoryLang.Tree.Statement

namespace StoryLang

@[simp] theorem Tree.yieldAll_append (ts us : List Tree) :
    yieldAll (ts ++ us) = yieldAll ts ++ yieldAll us := by
  induction ts with
  | nil => rfl
  | cons t ts ih => simp [yieldAll, ih]

theorem Tree.mem_yieldAll {ts : List Tree} {t : Tree} {u : Token} (ht : t ∈ ts)
    (hu : u ∈ t.yield) : u ∈ yieldAll ts := by
  induction ts with
  | nil => simp at ht
  | cons t' ts ih =>
    simp only [yieldAll, List.mem_append]
    rcases List.mem_cons.1 ht with rfl | ht
    · exact .inl hu
    · exact .inr (ih ht)

theorem Tree.of_mem_yieldAll {ts : List Tree} {u : Token} (hu : u ∈ yieldAll ts) :
    ∃ t ∈ ts, u ∈ t.yield := by
  induction ts with
  | nil => cases hu
  | cons t ts ih =>
    rw [yieldAll, List.mem_append] at hu
    rcases hu with hu | hu
    · exact ⟨t, by simp, hu⟩
    · obtain ⟨t', ht, hu⟩ := ih hu
      exact ⟨t', List.mem_cons_of_mem _ ht, hu⟩

/-- What a run of tokens is read as. -/
inductive Phrase where
  /-- A name that can be given to something. -/
  | name
  /-- Items with commas between them. -/
  | row (item : Phrase)
  | types
  /-- The fields and indexes behind the root of a path. -/
  | fragments
  | path
  /-- Arguments, as they stand in the node for them. -/
  | arguments
  | output
  /-- The further links of a chain. -/
  | links
  /-- A value in which calls stand in parentheses. -/
  | value
  /-- A value that may be a call itself. -/
  | anyValue
  /-- An entry of a map. -/
  | entry
  /-- A block from its indent on. -/
  | body
  /-- A block from the end of the line before it on. -/
  | block
  | branches
  /-- The `catch` of a `try`, if it has one. -/
  | caught
  /-- The `finally` of a `try`, if it has one. -/
  | always
  | parameters
  /-- The type a function returns, if it says one. -/
  | returns
  | statement
  | statements
  deriving DecidableEq

/-- Whether a token can be the name of a type. -/
def Grammar.isTypeWord (g : Grammar) (t : Token) : Prop :=
  t.kind = .keyword .functionWord ∨ t.kind = .name ∧ g.isReserved t.literal = false

/-- The tokens `ts` spell the trees. -/
inductive Derives (g : Grammar) : Phrase → List Token → List Tree → Prop where
  | name {t : Token} (kind : t.kind = .name) (free : g.isReserved t.literal = false) :
    Derives g .name [t] [.token t]
  -- rows
  | one {p ts t} (item : Derives g p ts [t]) : Derives g (.row p) ts [t]
  | more {p ts comma us t rest} (item : Derives g p ts [t])
      (kind : comma.kind = .symbol .comma) (others : Derives g (.row p) us rest) :
    Derives g (.row p) (ts ++ comma :: us) (t :: rest)
  -- types
  | typeName {w} (word : g.isTypeWord w) : Derives g .types [w] [.of .types [.token w]]
  | typeParts {w opening ts closing parts} (word : g.isTypeWord w)
      (opens : opening.kind = .symbol .leftBracket) (row : Derives g (.row .types) ts parts)
      (closes : closing.kind = .symbol .rightBracket) :
    Derives g .types (w :: opening :: ts ++ [closing]) [.of .types (.token w :: parts)]
  -- paths
  | noFragments : Derives g .fragments [] []
  | field {dot name ts rest} (kind : dot.kind = .symbol .dot)
      (named : Derives g .name [name] [.token name]) (others : Derives g .fragments ts rest) :
    Derives g .fragments (dot :: name :: ts)
      (.of .pathFragment [.token dot, .token name] :: rest)
  | index {opening ts v closing us rest} (opens : opening.kind = .symbol .leftBracket)
      (value : Derives g .value ts [v]) (closes : closing.kind = .symbol .rightBracket)
      (others : Derives g .fragments us rest) :
    Derives g .fragments (opening :: ts ++ closing :: us)
      (.of .pathFragment [.token opening, v, .token closing] :: rest)
  | path {root ts fs} (named : Derives g .name [root] [.token root])
      (others : Derives g .fragments ts fs) :
    Derives g .path (root :: ts) [.of .path (.token root :: fs)]
  -- arguments, outputs, links
  | noArguments : Derives g .arguments [] []
  | argument {name colon ts v us rest} (named : Derives g .name [name] [.token name])
      (kind : colon.kind = .symbol .colon) (value : Derives g .value ts [v])
      (others : Derives g .arguments us rest) :
    Derives g .arguments (name :: colon :: ts ++ us) (.of .argument [.token name, v] :: rest)
  | argumentComma {name colon ts v comma us rest} (named : Derives g .name [name] [.token name])
      (kind : colon.kind = .symbol .colon) (value : Derives g .value ts [v])
      (separated : comma.kind = .symbol .comma) (others : Derives g .arguments us rest) :
    Derives g .arguments (name :: colon :: ts ++ comma :: us)
      (.of .argument [.token name, v] :: rest)
  | output {word ts names} (kind : word.kind = .keyword .asWord)
      (row : Derives g (.row .name) ts names) :
    Derives g .output (word :: ts) [.of .output (.token word :: names)]
  | noLinks : Derives g .links [] []
  | link {word name ts given us rest} (kind : word.kind = .keyword .thenWord)
      (named : Derives g .name [name] [.token name]) (arguments : Derives g .arguments ts given)
      (others : Derives g .links us rest) :
    Derives g .links (word :: name :: ts ++ us)
      (.of .mutationFragment [.token word, .token name, .of .arguments given] :: rest)
  -- values
  | ofPath {ts t} (path : Derives g .path ts [t]) : Derives g .value ts [t]
  | number {t} (kind : t.kind = .int ∨ t.kind = .float) :
    Derives g .value [t] [.of .number [.token t]]
  | string {t} (kind : t.kind = .string) : Derives g .value [t] [.of .string [.token t]]
  | boolean {t} (kind : t.kind = .keyword .trueWord ∨ t.kind = .keyword .falseWord) :
    Derives g .value [t] [.of .boolean [.token t]]
  | null {t} (kind : t.kind = .keyword .nullWord) : Derives g .value [t] [.of .null [.token t]]
  | emptyList {opening closing} (opens : opening.kind = .symbol .leftBracket)
      (closes : closing.kind = .symbol .rightBracket) :
    Derives g .value [opening, closing] [.of .list [.token opening, .token closing]]
  | list {opening ts closing items} (opens : opening.kind = .symbol .leftBracket)
      (row : Derives g (.row .value) ts items) (closes : closing.kind = .symbol .rightBracket) :
    Derives g .value (opening :: ts ++ [closing])
      [.of .list (.token opening :: items ++ [.token closing])]
  | entry {ts key colon us item} (keyed : Derives g .value ts [key])
      (kind : colon.kind = .symbol .colon) (value : Derives g .value us [item]) :
    Derives g .entry (ts ++ colon :: us) [.of .mapItem [key, item]]
  | emptyMap {opening closing} (opens : opening.kind = .symbol .leftBrace)
      (closes : closing.kind = .symbol .rightBrace) :
    Derives g .value [opening, closing] [.of .map [.token opening, .token closing]]
  | map {opening ts closing items} (opens : opening.kind = .symbol .leftBrace)
      (row : Derives g (.row .entry) ts items) (closes : closing.kind = .symbol .rightBrace) :
    Derives g .value (opening :: ts ++ [closing])
      [.of .map (.token opening :: items ++ [.token closing])]
  | functionCall {name opening ts given closing} (named : Derives g .name [name] [.token name])
      (opens : opening.kind = .symbol .leftParen) (arguments : Derives g .arguments ts given)
      (closes : closing.kind = .symbol .rightParen) :
    Derives g .value (name :: opening :: ts ++ [closing])
      [.of .functionCall [.token name, .token opening, .of .arguments given, .token closing]]
  | parentheses {opening ts t closing} (opens : opening.kind = .symbol .leftParen)
      (inner : Derives g .anyValue ts [t]) (closes : closing.kind = .symbol .rightParen) :
    Derives g .value (opening :: ts ++ [closing]) [t]
  | unary {sign ts t} (operator : (g.operators.before? sign.kind).isSome)
      (operand : Derives g .value ts [t]) :
    Derives g .value (sign :: ts) [.of .unaryExpression [.token sign, t]]
  | cast {ts left word us type} (value : Derives g .value ts [left])
      (kind : word.kind = .keyword .asWord) (types : Derives g .types us [type]) :
    Derives g .value (ts ++ word :: us) [.of .cast [left, .token word, type]]
  | binary {ts left sign us right} (first : Derives g .value ts [left])
      (operator : (g.operators.between? sign.kind).isSome)
      (second : Derives g .value us [right]) :
    Derives g .value (ts ++ sign :: us) [.of .binaryExpression [left, .token sign, right]]
  -- calls
  | ofValue {ts t} (value : Derives g .value ts [t]) : Derives g .anyValue ts [t]
  | service {ts subject command us given} (value : Derives g .value ts [subject])
      (path : subject.isA .path = true) (named : Derives g .name [command] [.token command])
      (arguments : Derives g .arguments us given) :
    Derives g .anyValue (ts ++ command :: us)
      [.of .serviceCall [subject, .token command, .of .arguments given]]
  | serviceOutput {ts subject command us given vs output} (value : Derives g .value ts [subject])
      (path : subject.isA .path = true) (named : Derives g .name [command] [.token command])
      (arguments : Derives g .arguments us given) (names : Derives g .output vs [output]) :
    Derives g .anyValue (ts ++ command :: us ++ vs)
      [.of .serviceCall [subject, .token command, .of .arguments given, output]]
  | chain {ts subject command us given vs link rest} (value : Derives g .value ts [subject])
      (path : subject.isA .path = true) (named : Derives g .name [command] [.token command])
      (arguments : Derives g .arguments us given) (links : Derives g .links vs (link :: rest)) :
    Derives g .anyValue (ts ++ command :: us ++ vs)
      [.of .mutation
        (subject :: .of .mutationFragment [.token command, .of .arguments given] :: link :: rest)]
  | mutation {ts subject name us given vs rest} (value : Derives g .value ts [subject])
      (noPath : subject.isA .path = false) (named : Derives g .name [name] [.token name])
      (arguments : Derives g .arguments us given) (links : Derives g .links vs rest) :
    Derives g .anyValue (ts ++ name :: us ++ vs)
      [.of .mutation
        (subject :: .of .mutationFragment [.token name, .of .arguments given] :: rest)]
  -- blocks
  | body {opening ts closing statements} (opens : opening.kind = .indent)
      (inner : Derives g .statements ts statements) (closes : closing.kind = .dedent) :
    Derives g .body (opening :: ts ++ [closing]) [.of .block statements]
  | block {lineEnd ts t} (kind : lineEnd.kind = .newline) (body : Derives g .body ts [t]) :
    Derives g .block (lineEnd :: ts) [t]
  | noStatements : Derives g .statements [] []
  | statements {ts t us rest} (first : Derives g .statement ts [t])
      (others : Derives g .statements us rest) :
    Derives g .statements (ts ++ us) (t :: rest)
  -- statements of one line
  | assignment {ts target sign us v lineEnd} (path : Derives g .path ts [target])
      (kind : sign.kind = .symbol .assign) (value : Derives g .anyValue us [v])
      (ends : lineEnd.kind = .newline) :
    Derives g .statement (ts ++ sign :: us ++ [lineEnd])
      [.of .assignment [target, .token sign, v]]
  | call {ts t lineEnd} (value : Derives g .anyValue ts [t])
      (isCall : t.rule?.any Rule.isCall = true) (ends : lineEnd.kind = .newline) :
    Derives g .statement (ts ++ [lineEnd]) [t]
  | callBlock {ts line ps lineEnd us body}
      (value : Derives g .anyValue ts [.node .serviceCall line ps])
      (ends : lineEnd.kind = .newline) (block : Derives g .body us [body]) :
    Derives g .statement (ts ++ lineEnd :: us) [.node .serviceCall line (ps ++ [body])]
  | valueAlone {ts t lineEnd} (value : Derives g .anyValue ts [t])
      (noCall : t.rule?.any Rule.isCall = false) (ends : lineEnd.kind = .newline) :
    Derives g .statement (ts ++ [lineEnd]) [.of .expressionStatement [t]]
  | returnAlone {word lineEnd} (kind : word.kind = .keyword .returnWord)
      (ends : lineEnd.kind = .newline) :
    Derives g .statement [word, lineEnd] [.of .returnStatement [.token word]]
  | returnValue {word ts v lineEnd} (kind : word.kind = .keyword .returnWord)
      (value : Derives g .anyValue ts [v]) (ends : lineEnd.kind = .newline) :
    Derives g .statement (word :: ts ++ [lineEnd]) [.of .returnStatement [.token word, v]]
  | throwAlone {word lineEnd} (kind : word.kind = .keyword .throwWord)
      (ends : lineEnd.kind = .newline) :
    Derives g .statement [word, lineEnd] [.of .throwStatement [.token word]]
  | throwValue {word ts v lineEnd} (kind : word.kind = .keyword .throwWord)
      (value : Derives g .anyValue ts [v]) (ends : lineEnd.kind = .newline) :
    Derives g .statement (word :: ts ++ [lineEnd]) [.of .throwStatement [.token word, v]]
  | breakOff {word lineEnd} (kind : word.kind = .keyword .breakWord)
      (ends : lineEnd.kind = .newline) :
    Derives g .statement [word, lineEnd] [.of .breakStatement [.token word]]
  | continueOn {word lineEnd} (kind : word.kind = .keyword .continueWord)
      (ends : lineEnd.kind = .newline) :
    Derives g .statement [word, lineEnd] [.of .continueStatement [.token word]]
  | importFile {word file asWord name lineEnd} (kind : word.kind = .keyword .importWord)
      (quoted : file.kind = .string) (renamed : asWord.kind = .keyword .asWord)
      (named : Derives g .name [name] [.token name]) (ends : lineEnd.kind = .newline) :
    Derives g .statement [word, file, asWord, name, lineEnd]
      [.of .importStatement
        [.token word, .of .string [.token file], .token asWord, .token name]]
  -- statements with blocks
  | noBranches : Derives g .branches [] []
  | elseIf {elseWord ifWord ts condition us body vs rest}
      (kind : elseWord.kind = .keyword .elseWord) (again : ifWord.kind = .keyword .ifWord)
      (value : Derives g .value ts [condition]) (block : Derives g .block us [body])
      (others : Derives g .branches vs rest) :
    Derives g .branches (elseWord :: ifWord :: ts ++ us ++ vs)
      (.of .elifBlock [.token elseWord, .token ifWord, condition, body] :: rest)
  | otherwise {elseWord ts body} (kind : elseWord.kind = .keyword .elseWord)
      (block : Derives g .block ts [body]) :
    Derives g .branches (elseWord :: ts) [.of .elseBlock [.token elseWord, body]]
  | ifBlock {word ts condition us body vs branches} (kind : word.kind = .keyword .ifWord)
      (value : Derives g .value ts [condition]) (block : Derives g .block us [body])
      (others : Derives g .branches vs branches) :
    Derives g .statement (word :: ts ++ us ++ vs)
      [.of .ifBlock (.token word :: condition :: body :: branches)]
  | foreachBlock {word ts source us names vs body} (kind : word.kind = .keyword .foreachWord)
      (value : Derives g .value ts [source]) (output : Derives g .output us [names])
      (block : Derives g .block vs [body]) :
    Derives g .statement (word :: ts ++ us ++ vs)
      [.of .foreachBlock [.token word, source, names, body]]
  | whileBlock {word ts condition us body} (kind : word.kind = .keyword .whileWord)
      (value : Derives g .value ts [condition]) (block : Derives g .block us [body]) :
    Derives g .statement (word :: ts ++ us) [.of .whileBlock [.token word, condition, body]]
  | notCaught : Derives g .caught [] []
  | catchBlock {word ts body} (kind : word.kind = .keyword .catchWord)
      (block : Derives g .block ts [body]) :
    Derives g .caught (word :: ts) [.of .catchBlock [.token word, body]]
  | catchAs {word ts name us body} (kind : word.kind = .keyword .catchWord)
      (output : Derives g .output ts [name]) (block : Derives g .block us [body]) :
    Derives g .caught (word :: ts ++ us) [.of .catchBlock [.token word, name, body]]
  | notAlways : Derives g .always [] []
  | finallyBlock {word ts body} (kind : word.kind = .keyword .finallyWord)
      (block : Derives g .block ts [body]) :
    Derives g .always (word :: ts) [.of .finallyBlock [.token word, body]]
  | tryBlock {word ts body us caught vs after} (kind : word.kind = .keyword .tryWord)
      (block : Derives g .block ts [body]) (handled : Derives g .caught us caught)
      (ended : Derives g .always vs after) :
    Derives g .statement (word :: ts ++ us ++ vs)
      [.of .tryBlock (.token word :: body :: caught ++ after)]
  | noParameters : Derives g .parameters [] []
  | parameter {name colon ts type us rest} (named : Derives g .name [name] [.token name])
      (kind : colon.kind = .symbol .colon) (types : Derives g .types ts [type])
      (others : Derives g .parameters us rest) :
    Derives g .parameters (name :: colon :: ts ++ us) (.of .parameter [.token name, type] :: rest)
  | noReturns : Derives g .returns [] []
  | returns {word ts type} (kind : word.kind = .keyword .returnsWord)
      (types : Derives g .types ts [type]) :
    Derives g .returns (word :: ts) [.of .returns [.token word, type]]
  | functionBlock {word name ts parameters us type vs body}
      (kind : word.kind = .keyword .functionWord) (named : Derives g .name [name] [.token name])
      (given : Derives g .parameters ts parameters) (gives : Derives g .returns us type)
      (block : Derives g .block vs [body]) :
    Derives g .statement (word :: name :: ts ++ us ++ vs)
      [.of .functionBlock (.token word :: .token name :: parameters ++ type ++ [body])]
  | whenBlock {word ts target event us given vs body} (kind : word.kind = .keyword .whenWord)
      (path : Derives g .path ts [target]) (named : Derives g .name [event] [.token event])
      (arguments : Derives g .arguments us given) (block : Derives g .block vs [body]) :
    Derives g .statement (word :: ts ++ event :: us ++ vs)
      [.of .whenBlock [.token word, target, .token event, .of .arguments given, body]]
  | whenAs {word ts target event us given vs names ws body}
      (kind : word.kind = .keyword .whenWord) (path : Derives g .path ts [target])
      (named : Derives g .name [event] [.token event])
      (arguments : Derives g .arguments us given) (output : Derives g .output vs [names])
      (block : Derives g .block ws [body]) :
    Derives g .statement (word :: ts ++ event :: us ++ vs ++ ws)
      [.of .whenBlock [.token word, target, .token event, .of .arguments given, names, body]]

theorem Derives.name_kind {g : Grammar} {t : Token} {trees : List Tree}
    (h : Derives g .name [t] trees) : t.kind = .name := by
  cases h with
  | name kind _ => exact kind

theorem Grammar.isTypeWord.isLayout {g : Grammar} {t : Token} (h : g.isTypeWord t) :
    t.kind.isLayout = false := by
  rcases h with h | ⟨h, -⟩ <;> simp [h]

theorem Grammar.isTypeWord.not_string {g : Grammar} {t : Token} (h : g.isTypeWord t) :
    t.kind ≠ .string := by
  rcases h with h | ⟨h, -⟩ <;> simp [h]

/-! ## The tokens of a derivation -/

/-- Phrases that stay on their line, or between brackets. -/
def Phrase.isFlat : Phrase → Bool
  | .body | .block | .branches | .caught | .always | .statement | .statements => false
  | .row p => p.isFlat
  | _ => true

/-- There is no layout within a line. -/
theorem Derives.flat {g : Grammar} (hg : g.KeepsLayout) {p : Phrase} {ts : List Token}
    {trees : List Tree} (h : Derives g p ts trees) :
    p.isFlat = true → ∀ u ∈ ts, u.kind.isLayout = false := by
  induction h <;> intro hp
  case typeName word => simp [word.isLayout]
  case typeParts word opens row closes ih =>
    have := ih rfl
    simpa [opens, closes, word.isLayout, or_imp, forall_and]
  case number kind => rcases kind with kind | kind <;> simp [kind]
  case boolean kind => rcases kind with kind | kind <;> simp [kind]
  case unary operator operand ih =>
    have := ih rfl
    simpa [hg.before operator]
  case binary first operator second ih ih' =>
    have := ih rfl
    have := ih' rfl
    simp_all [hg.between operator, or_imp]
  -- every other token has a kind of its own, or is one of a smaller derivation
  all_goals simp_all [Phrase.isFlat, or_imp]

/-- The tokens of the trees are among those they are derived from. -/
theorem Derives.yield_subset {g : Grammar} {p : Phrase} {ts : List Token} {trees : List Tree}
    (h : Derives g p ts trees) : ∀ u ∈ Tree.yieldAll trees, u ∈ ts := by
  induction h
  all_goals simp only [Tree.yield, Tree.yieldAll, Tree.yieldAll_append] at *
  all_goals grind

/-- No layout is in a tree. -/
theorem Derives.yield_flat {g : Grammar} (hg : g.KeepsLayout) {p : Phrase} {ts : List Token}
    {trees : List Tree} (h : Derives g p ts trees) :
    ∀ u ∈ Tree.yieldAll trees, u.kind.isLayout = false := by
  induction h
  case typeName word => simp [Tree.yield, Tree.yieldAll, word.isLayout]
  case typeParts word opens row closes ih =>
    simpa [Tree.yield, Tree.yieldAll, word.isLayout] using ih
  case number kind => rcases kind with kind | kind <;> simp [Tree.yield, Tree.yieldAll, kind]
  case boolean kind => rcases kind with kind | kind <;> simp [Tree.yield, Tree.yieldAll, kind]
  case unary operator operand ih =>
    simpa [Tree.yield, Tree.yieldAll, hg.before operator] using ih
  case binary first operator second ih ih' =>
    simp_all [Tree.yield, Tree.yieldAll, hg.between operator, or_imp]
  all_goals simp_all [Tree.yield, Tree.yieldAll, or_imp]

end StoryLang
