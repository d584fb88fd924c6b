/-
The form of a tree: what the parts of a node can be.

`Content` says of each rule which rows of parts its nodes have, and `Formed`
that every node of a tree keeps to it. There are two stages. In a tree that
was read, a call can stand wherever a value can; in a plain tree it stands as
a statement or as the value of an assignment only, and a mutation has one
link. Everything that is read is formed (`Derives.formed`).
-/
import StoryLang.Proofs.Token.Literal
import StoryLang.Proofs.Tree.Derivation

namespace StoryLang

/-- What a tree has been through. -/
inductive Stage where
  | read
  | plain
  deriving DecidableEq

/-- Rules of values that are no calls. -/
def Rule.isValue : Rule → Bool
  | .binaryExpression | .unaryExpression | .cast | .path | .string | .number | .boolean | .null
  | .list | .map => true
  | _ => false

def Rule.isStatement : Rule → Bool
  | .assignment | .serviceCall | .mutation | .functionCall | .expressionStatement | .ifBlock
  | .foreachBlock | .whileBlock | .tryBlock | .functionBlock | .whenBlock | .returnStatement
  | .breakStatement | .continueStatement | .throwStatement | .importStatement => true
  | _ => false

/-- The parts of an `if` and a `try` that have a line and a block of their own. -/
def Rule.isBranch : Rule → Bool
  | .elifBlock | .elseBlock | .catchBlock | .finallyBlock => true
  | _ => false

namespace Tree

/-- What holds of a token, and of a node if it holds of its parts, holds of every tree. -/
theorem byParts {motive : Tree → Prop} (token : ∀ u, motive (.token u))
    (node : ∀ rule line ps, (∀ p ∈ ps, motive p) → motive (.node rule line ps)) (t : Tree) :
    motive t :=
  @Tree.rec motive (fun ps => ∀ p ∈ ps, motive p) token node (by simp)
    (fun _ _ hp hps => List.forall_mem_cons.2 ⟨hp, hps⟩) t

/-- What holds of no trees, and of a row with a token or a node with `Q` in front of one of which it
holds, holds of every row of such trees. -/
theorem byRow {P : List Tree → Prop} {Q : Tree → Prop} {ps : List Tree} (h : ∀ p ∈ ps, Q p) (nil : P [])
    (token : ∀ {u ps}, P ps → P (.token u :: ps))
    (node : ∀ {rule line inner ps}, Q (.node rule line inner) → P ps → P (.node rule line inner :: ps)) :
    P ps := by
  induction ps with
  | nil => exact nil
  | cons p ps ih =>
    simp only [List.forall_mem_cons] at h
    cases p with
    | token u => exact token (ih h.2)
    | node rule line inner => exact node h.1 (ih h.2)

def isCall (t : Tree) : Bool := t.rule?.any Rule.isCall

def isStatement (t : Tree) : Bool := t.rule?.any Rule.isStatement

/-- Whether a tree can stand where a value is needed. -/
def fits (s : Stage) (t : Tree) : Bool :=
  t.rule?.any fun r => r.isValue || (s = .read && r.isCall)

end Tree

/-- What a call of a service or a mutation may have behind its arguments or link. -/
inductive Extras : List Tree → Prop where
  | none : Extras []
  | output {o : Tree} (output : o.isA .output = true) : Extras [o]
  | block {b : Tree} (block : b.isA .block = true) : Extras [b]
  | both {o b : Tree} (output : o.isA .output = true) (block : b.isA .block = true) :
    Extras [o, b]

/-- The parts that a node of a rule has, where `P` is promised of the numbers,
and of the strings of a tree that was read. -/
inductive Content (P : Token → Prop) (g : Grammar) : Stage → Rule → List Tree → Prop where
  -- values
  | number {s t} (kind : t.kind = .int ∨ t.kind = .float) (sound : P t) :
    Content P g s .number [.token t]
  | string {s t} (kind : t.kind = .string) (sound : s = .read → P t) :
    Content P g s .string [.token t]
  | boolean {s t} : Content P g s .boolean [.token t]
  | null {s t} : Content P g s .null [.token t]
  | list {s opening items closing} (each : ∀ t ∈ items, t.fits s = true) :
    Content P g s .list (.token opening :: items ++ [.token closing])
  | map {s opening items closing} (each : ∀ t ∈ items, t.isA .mapItem = true) :
    Content P g s .map (.token opening :: items ++ [.token closing])
  | mapItem {s key v} (keyed : key.fits s = true) (value : v.fits s = true) :
    Content P g s .mapItem [key, v]
  | path {s root fs} (kind : root.kind = .name)
      (each : ∀ t ∈ fs, t.isA .pathFragment = true) :
    Content P g s .path (.token root :: fs)
  | field {s dot name} (kind : dot.kind = .symbol .dot) (named : name.kind = .name) :
    Content P g s .pathFragment [.token dot, .token name]
  | index {s opening v closing} (opens : opening.kind = .symbol .leftBracket)
      (value : v.fits s = true) (closes : closing.kind = .symbol .rightBracket) :
    Content P g s .pathFragment [.token opening, v, .token closing]
  | unary {s sign t} (operand : t.fits s = true) :
    Content P g s .unaryExpression [.token sign, t]
  | cast {s left word type} (value : left.fits s = true) (types : type.isA .types = true) :
    Content P g s .cast [left, .token word, type]
  | binary {s left sign right} (first : left.fits s = true)
      (operator : (g.operators.between? sign.kind).isSome ∨ sign.kind = .symbol .plus)
      (second : right.fits s = true) :
    Content P g s .binaryExpression [left, .token sign, right]
  | types {s w parts} (word : w.kind ≠ .string) (each : ∀ t ∈ parts, t.isA .types = true) :
    Content P g s .types (.token w :: parts)
  -- calls
  | functionCall {s name opening given closing} (named : name.kind = .name)
      (arguments : given.isA .arguments = true) :
    Content P g s .functionCall [.token name, .token opening, given, .token closing]
  | serviceCall {s subject command given extra} (path : subject.isA .path = true)
      (named : command.kind = .name) (arguments : given.isA .arguments = true)
      (extras : Extras extra) :
    Content P g s .serviceCall (subject :: .token command :: given :: extra)
  | chain {subject first rest} (value : subject.fits .read = true)
      (linked : first.isA .mutationFragment = true)
      (alone : first.token? (.keyword .thenWord) = none)
      (each : ∀ t ∈ rest, t.isA .mutationFragment = true) :
    Content P g .read .mutation (subject :: first :: rest)
  | mutation {subject link extra} (value : subject.fits .plain = true)
      (linked : link.isA .mutationFragment = true) (extras : Extras extra) :
    Content P g .plain .mutation (subject :: link :: extra)
  | link {s name given} (named : name.kind = .name) (arguments : given.isA .arguments = true) :
    Content P g s .mutationFragment [.token name, given]
  | furtherLink {s word name given} (kind : word.kind = .keyword .thenWord)
      (named : name.kind = .name) (arguments : given.isA .arguments = true) :
    Content P g s .mutationFragment [.token word, .token name, given]
  | arguments {s given} (each : ∀ t ∈ given, t.isA .argument = true) :
    Content P g s .arguments given
  | argument {s name v} (named : name.kind = .name) (value : v.fits s = true) :
    Content P g s .argument [.token name, v]
  | output {s word names} (each : ∀ t ∈ names, t.isNode = false) :
    Content P g s .output (.token word :: names)
  -- statements
  | block {s ts} (each : ∀ t ∈ ts, t.isStatement = true) : Content P g s .block ts
  | assignment {s target sign v} (path : target.isA .path = true)
      (value : v.fits s = true ∨ v.isCall = true) :
    Content P g s .assignment [target, .token sign, v]
  | expressionStatement {s v} (value : v.fits .plain = true) :
    Content P g s .expressionStatement [v]
  | returnAlone {s word} : Content P g s .returnStatement [.token word]
  | returnValue {s word v} (value : v.fits s = true) :
    Content P g s .returnStatement [.token word, v]
  | throwAlone {s word} : Content P g s .throwStatement [.token word]
  | throwValue {s word v} (value : v.fits s = true) :
    Content P g s .throwStatement [.token word, v]
  | breakOff {s word} : Content P g s .breakStatement [.token word]
  | continueOn {s word} : Content P g s .continueStatement [.token word]
  | importFile {s word file asWord name} (value : file.fits .plain = true)
      (named : name.kind = .name) :
    Content P g s .importStatement [.token word, file, .token asWord, .token name]
  | ifBlock {s word condition body branches} (value : condition.fits s = true)
      (block : body.isA .block = true)
      (each : ∀ t ∈ branches, t.isA .elifBlock = true ∨ t.isA .elseBlock = true) :
    Content P g s .ifBlock (.token word :: condition :: body :: branches)
  | elifBlock {s elseWord ifWord condition body} (value : condition.fits s = true)
      (block : body.isA .block = true) :
    Content P g s .elifBlock [.token elseWord, .token ifWord, condition, body]
  | elseBlock {s word body} (block : body.isA .block = true) :
    Content P g s .elseBlock [.token word, body]
  | foreachBlock {s word source names body} (value : source.fits s = true)
      (output : names.isA .output = true) (block : body.isA .block = true) :
    Content P g s .foreachBlock [.token word, source, names, body]
  | whileBlock {s word condition body} (value : condition.fits s = true)
      (block : body.isA .block = true) :
    Content P g s .whileBlock [.token word, condition, body]
  | tryBlock {s word body handlers} (block : body.isA .block = true)
      (each : ∀ t ∈ handlers, t.isA .catchBlock = true ∨ t.isA .finallyBlock = true) :
    Content P g s .tryBlock (.token word :: body :: handlers)
  | catchBlock {s word body} (block : body.isA .block = true) :
    Content P g s .catchBlock [.token word, body]
  | catchAs {s word name body} (output : name.isA .output = true)
      (block : body.isA .block = true) :
    Content P g s .catchBlock [.token word, name, body]
  | finallyBlock {s word body} (block : body.isA .block = true) :
    Content P g s .finallyBlock [.token word, body]
  | functionBlock {s word name declared body} (named : name.kind = .name)
      (each : ∀ t ∈ declared, t.isA .parameter = true ∨ t.isA .returns = true)
      (block : body.isA .block = true) :
    Content P g s .functionBlock (.token word :: .token name :: declared ++ [body])
  | parameter {s name type} (types : type.isA .types = true) :
    Content P g s .parameter [.token name, type]
  | returns {s word type} (types : type.isA .types = true) :
    Content P g s .returns [.token word, type]
  | whenBlock {s word target event given body} (path : target.isA .path = true)
      (arguments : given.isA .arguments = true) (block : body.isA .block = true) :
    Content P g s .whenBlock [.token word, target, .token event, given, body]
  | whenAs {s word target event given names body} (path : target.isA .path = true)
      (arguments : given.isA .arguments = true) (output : names.isA .output = true)
      (block : body.isA .block = true) :
    Content P g s .whenBlock [.token word, target, .token event, given, names, body]

/-- Every node of the tree has the parts of its rule, and none that was read
has a coordinate of its own. -/
inductive Formed (P : Token → Prop) (g : Grammar) (s : Stage) : Tree → Prop where
  | token (t : Token) : Formed P g s (.token t)
  | node {rule line ps} (content : Content P g s rule ps) (own : s = .read → line = none)
      (parts : ∀ p ∈ ps, Formed P g s p) : Formed P g s (.node rule line ps)

namespace Tree

theorem isA_iff {r : Rule} {t : Tree} : t.isA r = true ↔ ∃ line ps, t = .node r line ps := by
  cases t <;> simp [isA, rule?]

theorem isA_ne {r r' : Rule} {t : Tree} (h : t.isA r = true) (hr : r ≠ r') : t.isA r' = false := by
  obtain ⟨line, ps, rfl⟩ := isA_iff.1 h
  simp [isA, rule?, hr]

theorem fits_iff {s : Stage} {t : Tree} : t.fits s = true ↔ ∃ r line ps, t = .node r line ps ∧
    (r.isValue = true ∨ s = .read ∧ r.isCall = true) := by
  cases t <;> simp [fits, rule?]

theorem fits_isA {s : Stage} {r : Rule} {t : Tree} (h : t.fits s = true)
    (hr : r.isValue = false ∧ r.isCall = false) : t.isA r = false := by
  obtain ⟨r', line, ps, rfl, hv⟩ := fits_iff.1 h
  have hne : r' ≠ r := by
    rintro rfl
    simp [hr.1, hr.2] at hv
  simp [isA, rule?, hne]

theorem fits_of_isA {s : Stage} {r : Rule} {t : Tree} (h : t.isA r = true)
    (hr : r.isValue = true) : t.fits s = true := by
  obtain ⟨line, ps, rfl⟩ := isA_iff.1 h
  simp [fits, rule?, hr]

theorem fits_read {s : Stage} {t : Tree} (h : t.fits s = true) : t.fits .read = true := by
  obtain ⟨r, line, ps, rfl, hv⟩ := fits_iff.1 h
  rcases hv with hv | ⟨-, hv⟩ <;> simp [fits, rule?, hv]

/-- What is no call and fits where calls may stand fits anywhere. -/
theorem fits_plain {t : Tree} (h : t.fits .read = true) (hc : t.isCall = false) :
    t.fits .plain = true := by
  obtain ⟨r, line, ps, rfl, hv⟩ := fits_iff.1 h
  rcases hv with hv | ⟨-, hv⟩
  · simp [fits, rule?, hv]
  · simp [isCall, rule?, hv] at hc

theorem isNode_of_isStatement {t : Tree} (h : t.isStatement = true) : t.isNode = true := by
  cases t with
  | token t => simp [isStatement, rule?] at h
  | node rule line ps => rfl

theorem isStatement_of_isCall {t : Tree} (h : t.isCall = true) : t.isStatement = true := by
  cases t with
  | token t => simp [isCall, rule?] at h
  | node r line ps => cases r <;> simp_all [isCall, isStatement, rule?, Rule.isCall, Rule.isStatement]

end Tree

/-! ## What is read is formed -/

variable {P : Token → Prop}

/-- What a phrase's trees look like from outside. -/
def Phrase.admits : Phrase → Tree → Prop
  | .name, t => ∃ u : Token, t = .token u ∧ u.kind = .name
  | .row p, t => p.admits t
  | .types, t => t.isA .types = true
  | .fragments, t => t.isA .pathFragment = true
  | .path, t => t.isA .path = true
  | .arguments, t => t.isA .argument = true
  | .output, t => t.isA .output = true
  | .links, t => t.isA .mutationFragment = true
  | .value, t | .anyValue, t => t.fits .read = true ∧ ∀ p ∈ t.parts, p.isA .block = false
  | .entry, t => t.isA .mapItem = true
  | .body, t | .block, t => t.isA .block = true
  | .branches, t => t.isA .elifBlock = true ∨ t.isA .elseBlock = true
  | .caught, t => t.isA .catchBlock = true
  | .always, t => t.isA .finallyBlock = true
  | .parameters, t => t.isA .parameter = true
  | .returns, t => t.isA .returns = true
  | .statement, t | .statements, t => t.isStatement = true

theorem Formed.of {g : Grammar} {s : Stage} {rule : Rule} {ps : List Tree}
    (content : Content P g s rule ps) (parts : ∀ p ∈ ps, Formed P g s p) : Formed P g s (.of rule ps) :=
  .node content (fun _ => rfl) parts

theorem Extras.snoc {extra : List Tree} {b : Tree} (h : Extras extra)
    (he : ∀ p ∈ extra, p.isA .block = false) (hb : b.isA .block = true) : Extras (extra ++ [b]) := by
  cases h with
  | none => exact .block hb
  | output ho => exact .both ho hb
  | block h => simp [h] at he
  | both _ h => simp [h] at he

theorem Extras.each {extra : List Tree} (h : Extras extra) :
    ∀ p ∈ extra, p.isA .output = true ∨ p.isA .block = true := by
  cases h with
  | none => simp
  | output ho => simp [ho]
  | block hb => simp [hb]
  | both ho hb => simp [ho, hb]

/-- A node that was read, as its phrase sees it. -/
theorem Formed.single {g : Grammar} {p : Phrase} {rule : Rule} {ps : List Tree}
    (admits : p.admits (.of rule ps)) (content : Content P g .read rule ps)
    (parts : ∀ q ∈ ps, Formed P g .read q) :
    ∀ t ∈ [Tree.of rule ps], p.admits t ∧ Formed P g .read t :=
  List.forall_mem_singleton.2 ⟨admits, .node content (fun _ => rfl) parts⟩

theorem Formed.ofArguments {g : Grammar} {given : List Tree}
    (h : ∀ t ∈ given, Phrase.arguments.admits t ∧ Formed P g .read t) :
    Formed P g .read (.of .arguments given) :=
  .of (.arguments fun t ht => (h t ht).1) fun t ht => (h t ht).2

theorem Formed.noBlock_of_path {g : Grammar} {s : Stage} {t : Tree} (h : Formed P g s t)
    (ht : t.isA .path = true) : ∀ p ∈ t.parts, p.isA .block = false := by
  obtain ⟨line, ps, rfl⟩ := Tree.isA_iff.1 ht
  cases h with
  | node content _ _ =>
    cases content with
    | path _ each =>
      exact List.forall_mem_cons.2 ⟨rfl, fun p hp => Tree.isA_ne (each p hp) (by simp)⟩

theorem Formed.ofChain {g : Grammar} {subject : Tree} {name : Token} {given rest : List Tree}
    (hv : (subject.fits .read = true ∧ ∀ p ∈ subject.parts, p.isA .block = false) ∧
      Formed P g .read subject)
    (hn : name.kind = .name) (hg : ∀ t ∈ given, Phrase.arguments.admits t ∧ Formed P g .read t)
    (hl : ∀ t ∈ rest, Phrase.links.admits t ∧ Formed P g .read t) :
    ∀ t ∈ [Tree.of .mutation (subject ::
        .of .mutationFragment [.token name, .of .arguments given] :: rest)],
      (t.fits .read = true ∧ ∀ p ∈ t.parts, p.isA .block = false) ∧ Formed P g .read t := by
  have hf : Formed P g .read (.of .mutationFragment [.token name, .of .arguments given]) :=
    .of (.link hn rfl) (by simp [Formed.token, Formed.ofArguments hg])
  refine Formed.single (p := .value) ⟨rfl, ?_⟩ (.chain hv.1.1 rfl ?_ fun t ht => (hl t ht).1) ?_
  · simp only [Tree.parts, List.forall_mem_cons]
    exact ⟨Tree.fits_isA hv.1.1 ⟨rfl, rfl⟩, rfl, fun t ht => Tree.isA_ne (hl t ht).1 (by simp)⟩
  · simp [Tree.token?, Tree.tokens, Tree.parts, Tree.asToken?, hn]
  · simp only [List.forall_mem_cons]
    exact ⟨hv.2, hf, fun t ht => (hl t ht).2⟩

/-- A call without a block takes one. -/
theorem Formed.withBlock {g : Grammar} {s : Stage} {line : Option Coord} {ps : List Tree}
    {b : Tree} (h : Formed P g s (.node .serviceCall line ps)) (hp : ∀ p ∈ ps, p.isA .block = false)
    (hb : b.isA .block = true) (hf : Formed P g s b) :
    Formed P g s (.node .serviceCall line (ps ++ [b])) := by
  cases h with
  | node content own parts =>
    cases content with
    | serviceCall path named arguments extras =>
      simp only [List.forall_mem_cons] at hp
      refine .node (.serviceCall path named arguments (extras.snoc hp.2.2.2 hb)) own ?_
      simp only [List.cons_append, List.forall_mem_cons, List.forall_mem_append] at parts ⊢
      exact ⟨parts.1, parts.2.1, parts.2.2.1, parts.2.2.2, hf, by simp⟩

/-- What is derived from sound tokens looks like its phrase and is formed. -/
theorem Derives.formed {g : Grammar} {p : Phrase} {ts : List Token} {trees : List Tree}
    (h : Derives g p ts trees) :
    (∀ u ∈ ts, P u) → ∀ t ∈ trees, p.admits t ∧ Formed P g .read t := by
  induction h with
  | name kind free =>
    intro _
    simp only [List.forall_mem_singleton]
    exact ⟨⟨_, rfl, kind⟩, .token _⟩
  | one item ih => exact ih
  | more item kind others ih ih' =>
    intro hs
    simp only [List.forall_mem_append, List.forall_mem_cons] at hs ⊢
    exact ⟨ih hs.1 _ (by simp), ih' hs.2.2⟩
  | typeName word =>
    intro _
    exact Formed.single rfl (.types word.not_string (by simp)) (by simp [Formed.token])
  | typeParts word opens row closes ih =>
    intro hs
    simp only [List.forall_mem_append, List.forall_mem_cons] at hs
    have hp := ih hs.1.2.2
    exact Formed.single rfl (.types word.not_string fun t ht => (hp t ht).1)
      (List.forall_mem_cons.2 ⟨.token _, fun t ht => (hp t ht).2⟩)
  | noFragments | noArguments | noLinks | noStatements | noBranches | notCaught | notAlways
  | noParameters | noReturns => simp
  | field kind named others _ ih =>
    intro hs
    simp only [List.forall_mem_cons] at hs ⊢
    exact ⟨⟨rfl, .of (.field kind named.name_kind) (by simp [Formed.token])⟩, ih hs.2.2⟩
  | index opens value closes others ih ih' =>
    intro hs
    simp only [List.forall_mem_append, List.forall_mem_cons] at hs ⊢
    obtain ⟨⟨hv, -⟩, hf⟩ := List.forall_mem_singleton.1 (ih hs.1.2)
    exact ⟨⟨rfl, .of (.index opens hv closes) (by simp [Formed.token, hf])⟩, ih' hs.2.2⟩
  | path named others _ ih =>
    intro hs
    simp only [List.forall_mem_cons] at hs
    have hp := ih hs.2
    exact Formed.single rfl (.path named.name_kind fun t ht => (hp t ht).1)
      (List.forall_mem_cons.2 ⟨.token _, fun t ht => (hp t ht).2⟩)
  | argument named kind value others _ ih ih' =>
    intro hs
    simp only [List.forall_mem_append, List.forall_mem_cons] at hs ⊢
    obtain ⟨⟨hv, -⟩, hf⟩ := List.forall_mem_singleton.1 (ih hs.1.2.2)
    exact ⟨⟨rfl, .of (.argument named.name_kind hv) (by simp [Formed.token, hf])⟩, ih' hs.2⟩
  | argumentComma named kind value separated others _ ih ih' =>
    intro hs
    simp only [List.forall_mem_append, List.forall_mem_cons] at hs ⊢
    obtain ⟨⟨hv, -⟩, hf⟩ := List.forall_mem_singleton.1 (ih hs.1.2.2)
    exact ⟨⟨rfl, .of (.argument named.name_kind hv) (by simp [Formed.token, hf])⟩, ih' hs.2.2⟩
  | output kind row ih =>
    intro hs
    simp only [List.forall_mem_cons] at hs
    have hn := ih hs.2
    refine Formed.single rfl (.output fun t ht => ?_)
      (List.forall_mem_cons.2 ⟨.token _, fun t ht => (hn t ht).2⟩)
    obtain ⟨u, rfl, -⟩ := (hn t ht).1
    rfl
  | link kind named arguments others _ ih ih' =>
    intro hs
    simp only [List.forall_mem_append, List.forall_mem_cons] at hs ⊢
    have hg := Formed.ofArguments (ih hs.1.2.2)
    refine ⟨⟨rfl, .of (.furtherLink kind named.name_kind rfl) ?_⟩, ih' hs.2⟩
    simp [Formed.token, hg]
  | ofPath path ih =>
    intro hs
    obtain ⟨ha, hf⟩ := List.forall_mem_singleton.1 (ih hs)
    exact List.forall_mem_singleton.2 ⟨⟨Tree.fits_of_isA ha rfl, hf.noBlock_of_path ha⟩, hf⟩
  | number kind =>
    intro hs
    exact Formed.single ⟨rfl, by simp [Tree.parts, Tree.isA, Tree.rule?]⟩
      (.number kind (hs _ (by simp))) (by simp [Formed.token])
  | string kind =>
    intro hs
    exact Formed.single ⟨rfl, by simp [Tree.parts, Tree.isA, Tree.rule?]⟩
      (.string kind fun _ => hs _ (by simp)) (by simp [Formed.token])
  | boolean kind =>
    intro _
    exact Formed.single ⟨rfl, by simp [Tree.parts, Tree.isA, Tree.rule?]⟩ .boolean
      (by simp [Formed.token])
  | null kind =>
    intro _
    exact Formed.single ⟨rfl, by simp [Tree.parts, Tree.isA, Tree.rule?]⟩ .null
      (by simp [Formed.token])
  | @emptyList opening closing opens closes =>
    intro _
    exact Formed.single ⟨rfl, by simp [Tree.parts, Tree.isA, Tree.rule?]⟩
      (@Content.list _ _ _ _ [] _ (by simp)) (by simp [Formed.token])
  | list opens row closes ih =>
    intro hs
    simp only [List.forall_mem_append, List.forall_mem_cons] at hs
    have hi := ih hs.1.2
    refine Formed.single ⟨rfl, ?_⟩ (.list fun t ht => (hi t ht).1.1) ?_
    · simpa [Tree.parts, Tree.isA, Tree.rule?, or_imp, forall_and] using
        fun t ht => Tree.fits_isA (hi t ht).1.1 ⟨rfl, rfl⟩
    · simpa [or_imp, forall_and, Formed.token] using fun t ht => (hi t ht).2
  | entry keyed kind value ih ih' =>
    intro hs
    simp only [List.forall_mem_append, List.forall_mem_cons] at hs
    obtain ⟨⟨hk, -⟩, hf⟩ := List.forall_mem_singleton.1 (ih hs.1)
    obtain ⟨⟨hv, -⟩, hf'⟩ := List.forall_mem_singleton.1 (ih' hs.2.2)
    exact Formed.single rfl (.mapItem hk hv) (by simp [hf, hf'])
  | @emptyMap opening closing opens closes =>
    intro _
    exact Formed.single ⟨rfl, by simp [Tree.parts, Tree.isA, Tree.rule?]⟩
      (@Content.map _ _ _ _ [] _ (by simp)) (by simp [Formed.token])
  | map opens row closes ih =>
    intro hs
    simp only [List.forall_mem_append, List.forall_mem_cons] at hs
    have hi := ih hs.1.2
    refine Formed.single ⟨rfl, ?_⟩ (.map fun t ht => (hi t ht).1) ?_
    · simpa [Tree.parts, Tree.isA, Tree.rule?, or_imp, forall_and] using
        fun t ht => Tree.isA_ne (hi t ht).1 (by simp)
    · simpa [or_imp, forall_and, Formed.token] using fun t ht => (hi t ht).2
  | functionCall named opens arguments closes _ ih =>
    intro hs
    simp only [List.forall_mem_append, List.forall_mem_cons] at hs
    have hg := Formed.ofArguments (ih hs.1.2.2)
    exact Formed.single ⟨rfl, by simp [Tree.parts, Tree.isA, Tree.rule?]⟩
      (.functionCall named.name_kind rfl) (by simp [Formed.token, hg])
  | parentheses opens inner closes ih =>
    intro hs
    simp only [List.forall_mem_append, List.forall_mem_cons] at hs
    exact ih hs.1.2
  | unary operator operand ih =>
    intro hs
    simp only [List.forall_mem_cons] at hs
    obtain ⟨⟨hv, -⟩, hf⟩ := List.forall_mem_singleton.1 (ih hs.2)
    have hb := Tree.fits_isA (r := .block) hv ⟨rfl, rfl⟩
    exact Formed.single ⟨rfl, by simpa [Tree.parts, Tree.isA, Tree.rule?] using hb⟩ (.unary hv)
      (by simp [Formed.token, hf])
  | cast value kind types ih ih' =>
    intro hs
    simp only [List.forall_mem_append, List.forall_mem_cons] at hs
    obtain ⟨⟨hv, -⟩, hf⟩ := List.forall_mem_singleton.1 (ih hs.1)
    obtain ⟨ht, hf'⟩ := List.forall_mem_singleton.1 (ih' hs.2.2)
    have hb := Tree.fits_isA (r := .block) hv ⟨rfl, rfl⟩
    have hb' := @Tree.isA_ne _ .block _ ht (by simp)
    exact Formed.single ⟨rfl, by simpa [Tree.parts, Tree.isA, Tree.rule?] using ⟨hb, hb'⟩⟩
      (.cast hv ht) (by simp [Formed.token, hf, hf'])
  | binary first operator second ih ih' =>
    intro hs
    simp only [List.forall_mem_append, List.forall_mem_cons] at hs
    obtain ⟨⟨hv, -⟩, hf⟩ := List.forall_mem_singleton.1 (ih hs.1)
    obtain ⟨⟨hv', -⟩, hf'⟩ := List.forall_mem_singleton.1 (ih' hs.2.2)
    have hb := Tree.fits_isA (r := .block) hv ⟨rfl, rfl⟩
    have hb' := Tree.fits_isA (r := .block) hv' ⟨rfl, rfl⟩
    exact Formed.single ⟨rfl, by simpa [Tree.parts, Tree.isA, Tree.rule?] using ⟨hb, hb'⟩⟩
      (.binary hv (.inl operator) hv') (by simp [Formed.token, hf, hf'])
  | ofValue value ih => exact ih
  | service value path named arguments ih _ ih' =>
    intro hs
    simp only [List.forall_mem_append, List.forall_mem_cons] at hs
    obtain ⟨-, hf⟩ := List.forall_mem_singleton.1 (ih hs.1)
    have hg := Formed.ofArguments (ih' hs.2.2)
    have hb := @Tree.isA_ne _ .block _ path (by simp)
    exact Formed.single ⟨rfl, by simpa [Tree.parts, Tree.isA, Tree.rule?] using hb⟩
      (.serviceCall path named.name_kind rfl .none) (by simp [Formed.token, hf, hg])
  | serviceOutput value path named arguments names ih _ ih' ih'' =>
    intro hs
    simp only [List.forall_mem_append, List.forall_mem_cons] at hs
    obtain ⟨-, hf⟩ := List.forall_mem_singleton.1 (ih hs.1.1)
    obtain ⟨ho, hf'⟩ := List.forall_mem_singleton.1 (ih'' hs.2)
    have hg := Formed.ofArguments (ih' hs.1.2.2)
    have hb := @Tree.isA_ne _ .block _ path (by simp)
    have hb' := @Tree.isA_ne _ .block _ ho (by simp)
    exact Formed.single ⟨rfl, by simpa [Tree.parts, Tree.isA, Tree.rule?] using ⟨hb, hb'⟩⟩
      (.serviceCall path named.name_kind rfl (.output ho)) (by simp [Formed.token, hf, hf', hg])
  | chain value path named arguments links ih _ ih' ih'' =>
    intro hs
    simp only [List.forall_mem_append, List.forall_mem_cons] at hs
    exact Formed.ofChain (ih hs.1.1 _ (by simp)) named.name_kind (ih' hs.1.2.2) (ih'' hs.2)
  | mutation value noPath named arguments links ih _ ih' ih'' =>
    intro hs
    simp only [List.forall_mem_append, List.forall_mem_cons] at hs
    exact Formed.ofChain (ih hs.1.1 _ (by simp)) named.name_kind (ih' hs.1.2.2) (ih'' hs.2)
  | body opens inner closes ih =>
    intro hs
    simp only [List.forall_mem_append, List.forall_mem_cons] at hs
    have hi := ih hs.1.2
    exact Formed.single rfl (.block fun t ht => (hi t ht).1) fun t ht => (hi t ht).2
  | block kind body ih =>
    intro hs
    simp only [List.forall_mem_cons] at hs
    exact ih hs.2
  | statements first others ih ih' =>
    intro hs
    simp only [List.forall_mem_append] at hs
    exact List.forall_mem_cons.2 ⟨ih hs.1 _ (by simp), ih' hs.2⟩
  | assignment path kind value ends ih ih' =>
    intro hs
    simp only [List.forall_mem_append, List.forall_mem_cons] at hs
    obtain ⟨hp, hf⟩ := List.forall_mem_singleton.1 (ih hs.1.1)
    obtain ⟨⟨hv, -⟩, hf'⟩ := List.forall_mem_singleton.1 (ih' hs.1.2.2)
    exact Formed.single rfl (.assignment hp (.inl hv)) (by simp [Formed.token, hf, hf'])
  | call value isCall ends ih =>
    intro hs
    simp only [List.forall_mem_append] at hs
    obtain ⟨-, hf⟩ := List.forall_mem_singleton.1 (ih hs.1)
    exact List.forall_mem_singleton.2 ⟨Tree.isStatement_of_isCall isCall, hf⟩
  | callBlock value ends block ih ih' =>
    intro hs
    simp only [List.forall_mem_append, List.forall_mem_cons] at hs
    obtain ⟨⟨-, hb⟩, hf⟩ := List.forall_mem_singleton.1 (ih hs.1)
    obtain ⟨hb', hf'⟩ := List.forall_mem_singleton.1 (ih' hs.2.2)
    exact List.forall_mem_singleton.2 ⟨rfl, hf.withBlock hb hb' hf'⟩
  | valueAlone value noCall ends ih =>
    intro hs
    simp only [List.forall_mem_append] at hs
    obtain ⟨⟨hv, -⟩, hf⟩ := List.forall_mem_singleton.1 (ih hs.1)
    exact Formed.single rfl (.expressionStatement (Tree.fits_plain hv noCall)) (by simp [hf])
  | returnAlone kind ends =>
    intro _
    exact Formed.single rfl .returnAlone (by simp [Formed.token])
  | returnValue kind value ends ih =>
    intro hs
    simp only [List.forall_mem_append, List.forall_mem_cons] at hs
    obtain ⟨⟨hv, -⟩, hf⟩ := List.forall_mem_singleton.1 (ih hs.1.2)
    exact Formed.single rfl (.returnValue hv) (by simp [Formed.token, hf])
  | throwAlone kind ends =>
    intro _
    exact Formed.single rfl .throwAlone (by simp [Formed.token])
  | throwValue kind value ends ih =>
    intro hs
    simp only [List.forall_mem_append, List.forall_mem_cons] at hs
    obtain ⟨⟨hv, -⟩, hf⟩ := List.forall_mem_singleton.1 (ih hs.1.2)
    exact Formed.single rfl (.throwValue hv) (by simp [Formed.token, hf])
  | breakOff kind ends =>
    intro _
    exact Formed.single rfl .breakOff (by simp [Formed.token])
  | continueOn kind ends =>
    intro _
    exact Formed.single rfl .continueOn (by simp [Formed.token])
  | importFile kind quoted renamed named ends =>
    intro hs
    refine Formed.single rfl (.importFile rfl named.name_kind) ?_
    simpa [Formed.token] using
      Formed.of (.string quoted fun _ => hs _ (by simp)) (by simp [Formed.token])
  | elseIf kind again value block others ih ih' ih'' =>
    intro hs
    simp only [List.forall_mem_append, List.forall_mem_cons] at hs ⊢
    obtain ⟨⟨hv, -⟩, hf⟩ := List.forall_mem_singleton.1 (ih hs.1.1.2.2)
    obtain ⟨hb, hf'⟩ := List.forall_mem_singleton.1 (ih' hs.1.2)
    exact ⟨⟨.inl rfl, .of (.elifBlock hv hb) (by simp [Formed.token, hf, hf'])⟩, ih'' hs.2⟩
  | otherwise kind block ih =>
    intro hs
    simp only [List.forall_mem_cons] at hs
    obtain ⟨hb, hf⟩ := List.forall_mem_singleton.1 (ih hs.2)
    exact Formed.single (.inr rfl) (.elseBlock hb) (by simp [Formed.token, hf])
  | ifBlock kind value block others ih ih' ih'' =>
    intro hs
    simp only [List.forall_mem_append, List.forall_mem_cons] at hs
    obtain ⟨⟨hv, -⟩, hf⟩ := List.forall_mem_singleton.1 (ih hs.1.1.2)
    obtain ⟨hb, hf'⟩ := List.forall_mem_singleton.1 (ih' hs.1.2)
    have hr := ih'' hs.2
    refine Formed.single rfl (.ifBlock hv hb fun t ht => (hr t ht).1) ?_
    simp only [List.forall_mem_cons]
    exact ⟨.token _, hf, hf', fun t ht => (hr t ht).2⟩
  | foreachBlock kind value output block ih ih' ih'' =>
    intro hs
    simp only [List.forall_mem_append, List.forall_mem_cons] at hs
    obtain ⟨⟨hv, -⟩, hf⟩ := List.forall_mem_singleton.1 (ih hs.1.1.2)
    obtain ⟨ho, hf'⟩ := List.forall_mem_singleton.1 (ih' hs.1.2)
    obtain ⟨hb, hf''⟩ := List.forall_mem_singleton.1 (ih'' hs.2)
    exact Formed.single rfl (.foreachBlock hv ho hb) (by simp [Formed.token, hf, hf', hf''])
  | whileBlock kind value block ih ih' =>
    intro hs
    simp only [List.forall_mem_append, List.forall_mem_cons] at hs
    obtain ⟨⟨hv, -⟩, hf⟩ := List.forall_mem_singleton.1 (ih hs.1.2)
    obtain ⟨hb, hf'⟩ := List.forall_mem_singleton.1 (ih' hs.2)
    exact Formed.single rfl (.whileBlock hv hb) (by simp [Formed.token, hf, hf'])
  | catchBlock kind block ih =>
    intro hs
    simp only [List.forall_mem_cons] at hs
    obtain ⟨hb, hf⟩ := List.forall_mem_singleton.1 (ih hs.2)
    exact Formed.single rfl (.catchBlock hb) (by simp [Formed.token, hf])
  | catchAs kind output block ih ih' =>
    intro hs
    simp only [List.forall_mem_append, List.forall_mem_cons] at hs
    obtain ⟨ho, hf⟩ := List.forall_mem_singleton.1 (ih hs.1.2)
    obtain ⟨hb, hf'⟩ := List.forall_mem_singleton.1 (ih' hs.2)
    exact Formed.single rfl (.catchAs ho hb) (by simp [Formed.token, hf, hf'])
  | finallyBlock kind block ih =>
    intro hs
    simp only [List.forall_mem_cons] at hs
    obtain ⟨hb, hf⟩ := List.forall_mem_singleton.1 (ih hs.2)
    exact Formed.single rfl (.finallyBlock hb) (by simp [Formed.token, hf])
  | tryBlock kind block handled ended ih ih' ih'' =>
    intro hs
    simp only [List.forall_mem_append, List.forall_mem_cons] at hs
    obtain ⟨hb, hf⟩ := List.forall_mem_singleton.1 (ih hs.1.1.2)
    have hc := ih' hs.1.2
    have ha := ih'' hs.2
    refine Formed.single rfl (.tryBlock hb ?_) ?_
    · exact List.forall_mem_append.2
        ⟨fun t ht => .inl (hc t ht).1, fun t ht => .inr (ha t ht).1⟩
    · simp only [List.cons_append, List.forall_mem_cons, List.forall_mem_append]
      exact ⟨.token _, hf, fun t ht => (hc t ht).2, fun t ht => (ha t ht).2⟩
  | parameter named kind types others _ ih ih' =>
    intro hs
    simp only [List.forall_mem_append, List.forall_mem_cons] at hs ⊢
    obtain ⟨ht, hf⟩ := List.forall_mem_singleton.1 (ih hs.1.2.2)
    exact ⟨⟨rfl, .of (.parameter ht) (by simp [Formed.token, hf])⟩, ih' hs.2⟩
  | returns kind types ih =>
    intro hs
    simp only [List.forall_mem_cons] at hs
    obtain ⟨ht, hf⟩ := List.forall_mem_singleton.1 (ih hs.2)
    exact Formed.single rfl (.returns ht) (by simp [Formed.token, hf])
  | functionBlock kind named given gives block _ ih ih' ih'' =>
    intro hs
    simp only [List.forall_mem_append, List.forall_mem_cons] at hs
    have hp := ih hs.1.1.2.2
    have hr := ih' hs.1.2
    obtain ⟨hb, hf⟩ := List.forall_mem_singleton.1 (ih'' hs.2)
    rw [List.cons_append, List.cons_append]
    refine Formed.single rfl (.functionBlock named.name_kind ?_ hb) ?_
    · exact List.forall_mem_append.2
        ⟨fun t ht => .inl (hp t ht).1, fun t ht => .inr (hr t ht).1⟩
    · simp only [List.cons_append, List.forall_mem_cons, List.forall_mem_append]
      exact ⟨.token _, .token _, ⟨fun t ht => (hp t ht).2, fun t ht => (hr t ht).2⟩, hf, by simp⟩
  | whenBlock kind path named arguments block ih _ ih' ih'' =>
    intro hs
    simp only [List.forall_mem_append, List.forall_mem_cons] at hs
    obtain ⟨hp, hf⟩ := List.forall_mem_singleton.1 (ih hs.1.1.2)
    obtain ⟨hb, hf'⟩ := List.forall_mem_singleton.1 (ih'' hs.2)
    have hg := Formed.ofArguments (ih' hs.1.2.2)
    exact Formed.single rfl (.whenBlock hp rfl hb) (by simp [Formed.token, hf, hf', hg])
  | whenAs kind path named arguments output block ih _ ih' iho ih'' =>
    intro hs
    simp only [List.forall_mem_append, List.forall_mem_cons] at hs
    obtain ⟨hp, hf⟩ := List.forall_mem_singleton.1 (ih hs.1.1.1.2)
    obtain ⟨ho, hf'⟩ := List.forall_mem_singleton.1 (iho hs.1.2)
    obtain ⟨hb, hf''⟩ := List.forall_mem_singleton.1 (ih'' hs.2)
    have hg := Formed.ofArguments (ih' hs.1.1.2.2)
    exact Formed.single rfl (.whenAs hp rfl ho hb) (by simp [Formed.token, hf, hf', hf'', hg])

theorem Derives.formed_one {g : Grammar} {p : Phrase} {ts : List Token} {t : Tree}
    (h : Derives g p ts [t]) (hs : ∀ u ∈ ts, P u) : p.admits t ∧ Formed P g .read t :=
  h.formed hs t (by simp)

/-! ## First tokens -/

theorem Tree.mem_yield_of_firstToken? {t : Tree} {s : Token} (h : t.firstToken? = some s) :
    s ∈ t.yield := by
  rw [firstToken?_eq_head?] at h
  exact List.mem_of_head? h

/-- A node that starts with a value has a first token if the value has one. -/
theorem Tree.firstToken?_isSome_of_fits {s : Stage} {v : Tree} {rule : Rule} {line : Option Coord}
    {ts : List Tree} (hv : v.fits s = true)
    (ih : v.isA .block = false → v.isA .arguments = false → v.firstToken?.isSome = true) :
    (Tree.node rule line (v :: ts)).firstToken?.isSome = true := by
  simp [firstToken?, firstTokenOf?, ih (fits_isA hv ⟨rfl, rfl⟩) (fits_isA hv ⟨rfl, rfl⟩)]

/-- Only blocks and arguments can be empty. -/
theorem Formed.hasToken {g : Grammar} {s : Stage} {t : Tree} (h : Formed P g s t) :
    t.isA .block = false → t.isA .arguments = false → t.firstToken?.isSome = true := by
  induction h with
  | token t => intros; rfl
  | node content own parts ih =>
    intro hb ha
    cases content with
    | mapItem keyed _ => exact Tree.firstToken?_isSome_of_fits keyed (ih _ (by simp))
    | cast value _ | binary value _ _ | chain value _ _ _ | mutation value _ _
    | expressionStatement value => exact Tree.firstToken?_isSome_of_fits value (ih _ (by simp))
    | serviceCall path _ _ _ | assignment path _ =>
      exact Tree.firstToken?_isSome_of_fits (Tree.fits_of_isA (s := s) path rfl) (ih _ (by simp))
    | arguments => simp [Tree.isA, Tree.rule?] at ha
    | block => simp [Tree.isA, Tree.rule?] at hb
    -- every other node starts with a token
    | _ => simp [Tree.firstToken?, Tree.firstTokenOf?]

/-- What a node starts with, if it has parts and is no block. -/
theorem Content.head {g : Grammar} {s : Stage} {rule : Rule} {ps : List Tree}
    (h : Content P g s rule ps) (hr : rule ≠ .block) :
    ps = [] ∨ ∃ p rest, ps = p :: rest ∧ p.isA .block = false ∧ p.isA .arguments = false := by
  cases h with
  | block => exact absurd rfl hr
  | mapItem value _ | cast value _ | binary value _ _ | chain value _ _ _ | mutation value _ _
  | expressionStatement value =>
    exact .inr ⟨_, _, rfl, Tree.fits_isA value ⟨rfl, rfl⟩, Tree.fits_isA value ⟨rfl, rfl⟩⟩
  | serviceCall path _ _ _ | assignment path _ =>
    exact .inr ⟨_, _, rfl, Tree.isA_ne path (by simp), Tree.isA_ne path (by simp)⟩
  | arguments each =>
    cases ps with
    | nil => exact .inl rfl
    | cons t ts =>
      have ht := each t (by simp)
      exact .inr ⟨t, ts, rfl, Tree.isA_ne ht (by simp), Tree.isA_ne ht (by simp)⟩
  -- every other node starts with a token
  | _ => exact .inr ⟨_, _, rfl, rfl, rfl⟩

end StoryLang
