/-
Operator expressions, and how their operators may group.

An operator expression without parentheses is a row of operands, operators and
casts. `OperatorTree.Grouped` says which trees keep to the precedences of a
grammar: an operator in a right operand binds tighter than the operator in
front of the operand allows, and an operator goes on with a left operand only
if nothing at its right edge would have taken the operator first. Every row
has such a tree: operator by operator, each is put as deep at the right edge as
it binds.

`Tree.write` gives the tokens of a value, with parentheses around every value
in it, and `Writable` says which trees can be written so. Within another value
every piece starts with a token of its own kind (`Writable.starts`), by which
a reader knows it.
-/
import StoryLang.Proofs.Grammar.Declared
import StoryLang.Proofs.Tree.Form
import StoryLang.Tree.Statement

namespace StoryLang

namespace Grammar

/-- Operands of one token: names that are not reserved, and literals. -/
def isOperand (g : Grammar) (t : Token) : Bool :=
  match t.kind with
  | .name => !g.isReserved t.literal
  | .int | .float | .string => true
  | .keyword .trueWord | .keyword .falseWord | .keyword .nullWord => true
  | _ => false

/-- Words that name a type behind an `as`. -/
def namesType (g : Grammar) (t : Token) : Bool :=
  t.kind = .keyword .functionWord || (t.kind = .name && g.isTypeName t.literal)

/-- How tightly the operator between operands binds that is written with a kind of token. -/
def binding (g : Grammar) (k : TokenKind) : Nat :=
  ((g.operators.between? k).map (·.precedence)).getD 0

/-- What has to bind tighter to be in the right operand of such an operator. -/
def bindingRight (g : Grammar) (k : TokenKind) : Nat :=
  ((g.operators.between? k).map (·.rightPrecedence)).getD 0

/-- The same for the operand of an operator before it. -/
def bindingBefore (g : Grammar) (k : TokenKind) : Nat :=
  ((g.operators.before? k).map (·.precedence)).getD 0

/-- Whether an operator allows no row of its precedence, and another one has this precedence. -/
def clash (g : Grammar) (k k' : TokenKind) : Bool :=
  (g.operators.between? k).any fun o =>
    o.grouping = .none && (g.operators.between? k').any (·.precedence = o.precedence)

end Grammar

/-- The tree of an operator expression. -/
inductive OperatorTree where
  | operand (t : Token)
  | before (sign : Token) (x : OperatorTree)
  | between (left : OperatorTree) (sign : Token) (right : OperatorTree)
  | cast (x : OperatorTree) (word type : Token)
  deriving DecidableEq

namespace OperatorTree

/-- The tokens of the tree from left to right. -/
def reading : OperatorTree → List Token
  | operand t => [t]
  | before sign x => sign :: x.reading
  | between left sign right => left.reading ++ sign :: right.reading
  | cast x word type => x.reading ++ [word, type]

/-- The node of an operand of one token. -/
def operandNode (t : Token) : Tree :=
  match t.kind with
  | .name => .of .path [.token t]
  | .string => .of .string [.token t]
  | .keyword .nullWord => .of .null [.token t]
  | .keyword _ => .of .boolean [.token t]
  | _ => .of .number [.token t]

/-- The tree as a part of a story's tree. -/
def toTree : OperatorTree → Tree
  | operand t => operandNode t
  | before sign x => .of .unaryExpression [.token sign, x.toTree]
  | between left sign right => .of .binaryExpression [left.toTree, .token sign, right.toTree]
  | cast x word type => .of .cast [x.toTree, .token word, .of .types [.token type]]

/-- Operands, operators and casts are what the grammar declares. -/
def Declared (g : Grammar) : OperatorTree → Prop
  | operand t => g.isOperand t = true
  | before sign x => (g.operators.before? sign.kind).isSome ∧ x.Declared g
  | between left sign right =>
    left.Declared g ∧ (g.operators.between? sign.kind).isSome ∧ right.Declared g
  | cast x word type =>
    x.Declared g ∧ word.kind = .keyword .asWord ∧ g.namesType type = true

/-- The precedences of the operators and casts at the left edge, from the top
down. The edge ends at an operator before its operand. -/
def leftEdge (g : Grammar) : OperatorTree → List Nat
  | operand _ | before _ _ => []
  | between left sign _ => g.binding sign.kind :: left.leftEdge g
  | cast x _ _ => g.castPrecedence :: x.leftEdge g

/-- What has to bind tighter to be taken by the operators at the right edge,
from the top down. A cast ends the edge, since a type takes nothing. -/
def rightEdge (g : Grammar) : OperatorTree → List Nat
  | operand _ | cast _ _ _ => []
  | before sign x => g.bindingBefore sign.kind :: x.rightEdge g
  | between _ sign right => g.bindingRight sign.kind :: right.rightEdge g

/-- The operators group by their precedences. -/
def Grouped (g : Grammar) : OperatorTree → Prop
  | operand _ => True
  | before sign x => x.Grouped g ∧ ∀ p ∈ x.leftEdge g, g.bindingBefore sign.kind < p
  | between left sign right =>
    left.Grouped g ∧ right.Grouped g ∧ (∀ p ∈ right.leftEdge g, g.bindingRight sign.kind < p) ∧
      ∀ q ∈ left.rightEdge g, g.binding sign.kind ≤ q
  | cast x _ _ => x.Grouped g ∧ ∀ q ∈ x.rightEdge g, g.castPrecedence ≤ q

instance decidableDeclared (g : Grammar) : (e : OperatorTree) → Decidable (e.Declared g)
  | operand t => inferInstanceAs (Decidable (g.isOperand t = true))
  | before _ x =>
    have := decidableDeclared g x
    inferInstanceAs (Decidable (_ ∧ _))
  | between left _ right =>
    have := decidableDeclared g left
    have := decidableDeclared g right
    inferInstanceAs (Decidable (_ ∧ _ ∧ _))
  | cast x _ _ =>
    have := decidableDeclared g x
    inferInstanceAs (Decidable (_ ∧ _ ∧ _))

instance decidableGrouped (g : Grammar) : (e : OperatorTree) → Decidable (e.Grouped g)
  | operand _ => isTrue trivial
  | before _ x =>
    have := decidableGrouped g x
    inferInstanceAs (Decidable (_ ∧ _))
  | between left _ right =>
    have := decidableGrouped g left
    have := decidableGrouped g right
    inferInstanceAs (Decidable (_ ∧ _ ∧ _ ∧ _))
  | cast x _ _ =>
    have := decidableGrouped g x
    inferInstanceAs (Decidable (_ ∧ _))

variable {g : Grammar}

theorem operandNode_eq (t : Token) : ∃ r, operandNode t = .of r [.token t] := by
  unfold operandNode
  split <;> exact ⟨_, rfl⟩

/-- The tree can be told from its node. -/
theorem toTree_injective : ∀ {e e' : OperatorTree}, e.toTree = e'.toTree → e = e'
  | operand t, e', h => by
    obtain ⟨r, hr⟩ := operandNode_eq t
    cases e' with
    | operand t' =>
      obtain ⟨r', hr'⟩ := operandNode_eq t'
      simp only [toTree, hr, hr'] at h
      injection h with _ _ h
      simpa using h
    | _ => simp [toTree, hr] at h
  | before sign x, e', h => by
    cases e' with
    | before sign' x' =>
      simp only [toTree, Tree.node.injEq, List.cons.injEq, Tree.token.injEq, true_and, and_true] at h
      rw [h.1, toTree_injective h.2]
    | operand t =>
      obtain ⟨r, hr⟩ := operandNode_eq t
      simp [toTree, hr] at h
    | _ => simp [toTree] at h
  | between left sign right, e', h => by
    cases e' with
    | between left' sign' right' =>
      simp only [toTree, Tree.node.injEq, List.cons.injEq, Tree.token.injEq, true_and, and_true] at h
      rw [toTree_injective h.1, h.2.1, toTree_injective h.2.2]
    | operand t =>
      obtain ⟨r, hr⟩ := operandNode_eq t
      simp [toTree, hr] at h
    | _ => simp [toTree] at h
  | cast x word type, e', h => by
    cases e' with
    | cast x' word' type' =>
      simp only [toTree, Tree.node.injEq, List.cons.injEq, Tree.token.injEq, true_and, and_true] at h
      rw [toTree_injective h.1, h.2.1, h.2.2]
    | operand t =>
      obtain ⟨r, hr⟩ := operandNode_eq t
      simp [toTree, hr] at h
    | _ => simp [toTree] at h

/-! ## Every row has a grouped tree -/

/-- Puts `wrap` around the innermost right operand whose operator is looser
than `p`, if there is one. -/
def attach? (g : Grammar) (p : Nat) (wrap : OperatorTree → OperatorTree) :
    OperatorTree → Option OperatorTree
  | operand _ | cast _ _ _ => none
  | before sign x =>
    match x.attach? g p wrap with
    | some x' => some (before sign x')
    | none => if g.bindingBefore sign.kind < p then some (before sign (wrap x)) else none
  | between left sign right =>
    match right.attach? g p wrap with
    | some right' => some (between left sign right')
    | none => if g.bindingRight sign.kind < p then some (between left sign (wrap right)) else none

theorem attach?_none {p : Nat} {wrap : OperatorTree → OperatorTree} {e : OperatorTree}
    (h : e.attach? g p wrap = none) : ∀ q ∈ e.rightEdge g, p ≤ q := by
  induction e with
  | operand t => simp [rightEdge]
  | cast x word type => simp [rightEdge]
  | before sign x ih =>
    simp only [attach?] at h
    split at h
    · cases h
    · rename_i hx
      split at h
      · cases h
      · rename_i hp
        simpa [rightEdge] using ⟨by omega, ih hx⟩
  | between left sign right _ ih =>
    simp only [attach?] at h
    split at h
    · cases h
    · rename_i hx
      split at h
      · cases h
      · rename_i hp
        simpa [rightEdge] using ⟨by omega, ih hx⟩

/-- What goes on with an operand behind its right edge: the operand comes
first, and the operator has precedence `p`. -/
structure Extends (g : Grammar) (p : Nat) (wrap : OperatorTree → OperatorTree)
    (taken : List Token) : Prop where
  reading : ∀ x, (wrap x).reading = x.reading ++ taken
  leftEdge : ∀ x, (wrap x).leftEdge g = p :: x.leftEdge g
  declared : ∀ x, x.Declared g → (wrap x).Declared g
  grouped : ∀ x, x.Grouped g → (∀ q ∈ x.rightEdge g, p ≤ q) → (wrap x).Grouped g

/-- A tree that reads some tokens, by what the grammar declares and how it groups. -/
structure Spells (g : Grammar) (ts : List Token) (e : OperatorTree) : Prop where
  reading : e.reading = ts
  declared : e.Declared g
  grouped : e.Grouped g

variable {p : Nat} {wrap : OperatorTree → OperatorTree} {taken : List Token}

theorem Extends.attach (hw : Extends g p wrap taken) : ∀ {e e' : OperatorTree},
    e.attach? g p wrap = some e' → e.Declared g → e.Grouped g →
      Spells g (e.reading ++ taken) e' ∧ e'.leftEdge g = e.leftEdge g
  | operand _, _, h, _, _ => by simp [attach?] at h
  | cast _ _ _, _, h, _, _ => by simp [attach?] at h
  | before sign x, e', h, hd, hg => by
    simp only [attach?] at h
    split at h
    · rename_i x' hx
      obtain rfl := Option.some.inj h
      obtain ⟨⟨hr, hd', hg'⟩, hl⟩ := attach hw hx hd.2 hg.1
      exact ⟨⟨by simp [OperatorTree.reading, hr], ⟨hd.1, hd'⟩, ⟨hg', hl ▸ hg.2⟩⟩, rfl⟩
    · rename_i hx
      split at h
      · rename_i hp
        obtain rfl := Option.some.inj h
        refine ⟨⟨by simp [OperatorTree.reading, hw.reading], ⟨hd.1, hw.declared x hd.2⟩, ?_⟩, rfl⟩
        refine ⟨hw.grouped x hg.1 (attach?_none hx), ?_⟩
        simpa [hw.leftEdge, hp] using hg.2
      · cases h
  | between left sign right, e', h, hd, hg => by
    simp only [attach?] at h
    split at h
    · rename_i right' hx
      obtain rfl := Option.some.inj h
      obtain ⟨⟨hr, hd', hg'⟩, hl⟩ := attach hw hx hd.2.2 hg.2.1
      refine ⟨⟨by simp [OperatorTree.reading, hr], ⟨hd.1, hd.2.1, hd'⟩, ?_⟩, rfl⟩
      exact ⟨hg.1, hg', hl ▸ hg.2.2.1, hg.2.2.2⟩
    · rename_i hx
      split at h
      · rename_i hp
        obtain rfl := Option.some.inj h
        refine ⟨⟨by simp [OperatorTree.reading, hw.reading],
          ⟨hd.1, hd.2.1, hw.declared right hd.2.2⟩, ?_⟩, rfl⟩
        refine ⟨hg.1, hw.grouped right hg.2.1 (attach?_none hx), ?_, hg.2.2.2⟩
        simpa [hw.leftEdge, hp] using hg.2.2.1
      · cases h

end OperatorTree

open OperatorTree

end StoryLang

namespace StoryLang

/-! ## Writing a value -/

/-- A token of a symbol. -/
def Symbol.token (s : Symbol) (p : Position) : Token := ⟨.symbol s, s.text, p⟩

/-- Tokens in parentheses. -/
def inParens (p : Position) (ts : List Token) : List Token :=
  Symbol.leftParen.token p :: ts ++ [Symbol.rightParen.token p]

theorem inParens_append (p : Position) (ts us : List Token) : inParens p ts ++ us =
    Symbol.leftParen.token p :: (ts ++ Symbol.rightParen.token p :: us) := by
  simp [inParens]

@[simp] theorem length_inParens (p : Position) (ts : List Token) :
    (inParens p ts).length = ts.length + 2 := by
  simp [inParens]

/-- Tokens in brackets, if there are any. -/
def inBrackets (p : Position) (ts : List Token) : List Token :=
  if ts.isEmpty then [] else Symbol.leftBracket.token p :: ts ++ [Symbol.rightBracket.token p]

/-- What separates two nodes among the parts of a rule. -/
def Rule.separator? : Rule → Option Symbol
  | .list | .map | .types => some .comma
  | .mapItem => some .colon
  | _ => none

namespace Tree

/-- The separator in front of a node, where there is one. -/
def separation (p : Position) (sep : Option Symbol) (ts : List Tree) : List Token :=
  if ts.head?.any isNode then sep.toList.map (·.token p) else []

mutual

/-- The tokens a value is written with: its own, and at the place `p` what a tree leaves out. A
value within it stands in parentheses, save the path of a service. -/
def write (p : Position) : Tree → List Token
  | token t => [t]
  | node .serviceCall _ (service :: call) => write p service ++ writeRow p none call
  | node .argument _ (name :: given) =>
    write p name ++ Symbol.colon.token p :: writeRow p none given
  | node .types _ (word :: parts) =>
    write p word ++ inBrackets p (writeRow p Rule.types.separator? parts)
  | node rule _ ps => writeRow p rule.separator? ps

/-- The tokens of parts in a row, with a separator between two nodes. -/
def writeRow (p : Position) (sep : Option Symbol) : List Tree → List Token
  | [] => []
  | t :: ts =>
    (if t.fits .read then inParens p (write p t) else write p t) ++
      (if t.isNode then separation p sep ts else []) ++ writeRow p sep ts

end

/-- The tokens of a tree as a part of another one. -/
def writePart (p : Position) (t : Tree) : List Token :=
  if t.fits .read then inParens p (t.write p) else t.write p

variable {p : Position} {sep : Option Symbol} {s : Symbol} {t u : Tree} {v : Token} {ts : List Tree}

theorem writeRow_cons : writeRow p sep (t :: ts) =
    t.writePart p ++ (if t.isNode then separation p sep ts else []) ++ writeRow p sep ts := rfl

@[simp] theorem writeRow_nil : writeRow p sep [] = [] := rfl

@[simp] theorem writeRow_token : writeRow p sep (.token v :: ts) = v :: writeRow p sep ts := rfl

@[simp] theorem writePart_token : (token v).writePart p = [v] := rfl

theorem writePart_fits (h : t.fits .read = true) : t.writePart p = inParens p (t.write p) := if_pos h

/-- Without a separator the parts are written one behind the other. -/
theorem writeRow_none : writeRow p none (t :: ts) = t.writePart p ++ writeRow p none ts := by
  simp [writeRow_cons, separation]

theorem writeRow_one : writeRow p sep [t] = t.writePart p := by
  simp [writeRow_cons, separation]

theorem writeRow_two (ht : t.isNode = true) (hu : u.isNode = true) :
    writeRow p (some s) (t :: u :: ts) =
      t.writePart p ++ s.token p :: writeRow p (some s) (u :: ts) := by
  simp [writeRow_cons (t := t), separation, ht, hu]

theorem length_writePart_le (ht : t ∈ ts) : (t.writePart p).length ≤ (writeRow p sep ts).length := by
  induction ts with
  | nil => cases ht
  | cons u ts ih =>
    rw [writeRow_cons, List.length_append, List.length_append]
    cases ht with
    | head => omega
    | tail _ ht =>
      have := ih ht
      omega

/-- There is a separator between any two nodes. -/
theorem length_le_writeRow (hts : ∀ t ∈ ts, t.isNode = true) :
    ts.length ≤ (writeRow p (some s) ts).length + 1 := by
  induction ts with
  | nil => simp
  | cons t ts ih =>
    obtain ⟨ht, hts⟩ := List.forall_mem_cons.1 hts
    have := ih hts
    cases ts with
    | nil => simp
    | cons u ts =>
      rw [writeRow_two ht (hts u (by simp))]
      simp only [List.length_append, List.length_cons] at this ⊢
      omega

theorem writeRow_snoc : writeRow p sep (ts ++ [.token v]) = writeRow p sep ts ++ [v] := by
  induction ts with
  | nil => rfl
  | cons t ts ih =>
    have hsep : separation p sep (ts ++ [.token v]) = separation p sep ts := by
      cases ts <;> rfl
    simp only [List.cons_append, writeRow_cons, hsep, ih, List.append_assoc]

end Tree

/-! ## The values there are -/

/-- A name that is not reserved. -/
def Grammar.isFreeName (g : Grammar) (t : Token) : Prop :=
  t.kind = .name ∧ g.isReserved t.literal = false

namespace Tree

/-- The values, and the parts of values. -/
inductive Piece where
  | value
  | path
  /-- A field or an index behind a path. -/
  | fragment
  /-- An entry of a map. -/
  | entry
  | argument
  /-- A mutation behind another one. -/
  | link
  | types

/-- The kinds of tokens that a piece starts with, as a part. -/
def Piece.starts : Piece → TokenKind → Prop
  | .value, k | .path, k | .entry, k => k = .symbol .leftParen
  | .fragment, k => k = .symbol .dot ∨ k = .symbol .leftBracket
  | .argument, k => k = .name
  | .link, k => k = .keyword .thenWord
  | .types, k => k = .keyword .functionWord ∨ k = .name

/-- A tree that can be written: it is made of the right parts, no name in it is reserved, and it
is the tree that its tokens are read as. The last asks that no call of a service has an output,
that a cast is not to be told from one, and that one mutation alone is not of a path: that is
read as the call of a service. -/
inductive Writable (g : Grammar) : Piece → Tree → Prop where
  | number {t} (kind : t.kind = .int ∨ t.kind = .float) : Writable g .value (.of .number [.token t])
  | string {t} (kind : t.kind = .string) : Writable g .value (.of .string [.token t])
  | boolean {t} (kind : t.kind = .keyword .trueWord ∨ t.kind = .keyword .falseWord) :
    Writable g .value (.of .boolean [.token t])
  | null {t} (kind : t.kind = .keyword .nullWord) : Writable g .value (.of .null [.token t])
  | ofPath {t} (path : Writable g .path t) : Writable g .value t
  | path {root fs} (named : g.isFreeName root) (each : ∀ t ∈ fs, Writable g .fragment t) :
    Writable g .path (.of .path (.token root :: fs))
  | field {dot name} (kind : dot.kind = .symbol .dot) (named : g.isFreeName name) :
    Writable g .fragment (.of .pathFragment [.token dot, .token name])
  | index {opening v closing} (opens : opening.kind = .symbol .leftBracket)
      (value : Writable g .value v) (closes : closing.kind = .symbol .rightBracket) :
    Writable g .fragment (.of .pathFragment [.token opening, v, .token closing])
  | list {opening items closing} (opens : opening.kind = .symbol .leftBracket)
      (each : ∀ t ∈ items, Writable g .value t) (closes : closing.kind = .symbol .rightBracket) :
    Writable g .value (.of .list (.token opening :: items ++ [.token closing]))
  | map {opening items closing} (opens : opening.kind = .symbol .leftBrace)
      (each : ∀ t ∈ items, Writable g .entry t) (closes : closing.kind = .symbol .rightBrace) :
    Writable g .value (.of .map (.token opening :: items ++ [.token closing]))
  | entry {key v} (keyed : Writable g .value key) (value : Writable g .value v) :
    Writable g .entry (.of .mapItem [key, v])
  | unary {sign v} (operator : (g.operators.before? sign.kind).isSome)
      (operand : Writable g .value v) : Writable g .value (.of .unaryExpression [.token sign, v])
  | binary {left sign right} (first : Writable g .value left)
      (operator : (g.operators.between? sign.kind).isSome) (second : Writable g .value right) :
    Writable g .value (.of .binaryExpression [left, .token sign, right])
  | cast {v asWord word parts} (value : Writable g .value v) (kind : asWord.kind = .keyword .asWord)
      (named : g.namesType word = true)
      (types : Writable g .types (.of .types (.token word :: parts))) :
    Writable g .value (.of .cast [v, .token asWord, .of .types (.token word :: parts)])
  | types {word parts} (named : g.isTypeWord word) (each : ∀ t ∈ parts, Writable g .types t) :
    Writable g .types (.of .types (.token word :: parts))
  | functionCall {name opening given closing} (named : g.isFreeName name)
      (opens : opening.kind = .symbol .leftParen) (each : ∀ t ∈ given, Writable g .argument t)
      (closes : closing.kind = .symbol .rightParen) :
    Writable g .value
      (.of .functionCall [.token name, .token opening, .of .arguments given, .token closing])
  | argument {name v} (named : g.isFreeName name) (value : Writable g .value v) :
    Writable g .argument (.of .argument [.token name, v])
  | serviceCall {service command given} (path : Writable g .path service)
      (named : g.isFreeName command) (each : ∀ t ∈ given, Writable g .argument t) :
    Writable g .value (.of .serviceCall [service, .token command, .of .arguments given])
  | mutation {subject name given further} (value : Writable g .value subject)
      (named : g.isFreeName name) (each : ∀ t ∈ given, Writable g .argument t)
      (chained : ∀ t ∈ further, Writable g .link t)
      (told : subject.isA .path = false ∨ further ≠ []) :
    Writable g .value (.of .mutation
      (subject :: .of .mutationFragment [.token name, .of .arguments given] :: further))
  | link {word name given} (kind : word.kind = .keyword .thenWord) (named : g.isFreeName name)
      (each : ∀ t ∈ given, Writable g .argument t) :
    Writable g .link (.of .mutationFragment [.token word, .token name, .of .arguments given])

namespace Writable

variable {g : Grammar} {p : Position} {piece : Piece} {t : Tree}

theorem isA_path (h : Writable g .path t) : t.isA .path = true := by
  cases h
  rfl

theorem fits (h : Writable g .value t) : t.fits .read = true := by
  cases h with
  | ofPath h => exact fits_of_isA h.isA_path rfl
  | _ => rfl

theorem isNode (h : Writable g piece t) : t.isNode = true := by
  cases h with
  | ofPath h => cases h; rfl
  | _ => rfl

theorem writePart_value (h : Writable g .value t) : t.writePart p = inParens p (t.write p) :=
  writePart_fits h.fits

/-- The token that a piece starts with, as a part. -/
theorem starts (h : Writable g piece t) :
    ∃ u us, t.writePart p = u :: us ∧ piece.starts u.kind := by
  have value {v : Tree} (h : v.fits .read = true) :
      ∃ u us, v.writePart p = u :: us ∧ u.kind = .symbol .leftParen :=
    ⟨_, _, writePart_fits h, rfl⟩
  cases h with
  | path => exact value rfl
  | field kind => exact ⟨_, _, rfl, .inl kind⟩
  | index opens => exact ⟨_, _, rfl, .inr opens⟩
  | @entry key v keyed =>
    obtain ⟨u, us, hu, hk⟩ := value keyed.fits
    have hw : (of .mapItem [key, v]).writePart p = writeRow p (some .colon) [key, v] := rfl
    rw [hw, writeRow_cons, hu]
    exact ⟨_, _, rfl, hk⟩
  | types named => exact ⟨_, _, rfl, named.imp_right (·.1)⟩
  | argument named => exact ⟨_, _, rfl, named.1⟩
  | link kind => exact ⟨_, _, rfl, kind⟩
  | ofPath path => exact value (fits (.ofPath path))
  | _ => exact value rfl

end Writable

end Tree

end StoryLang
