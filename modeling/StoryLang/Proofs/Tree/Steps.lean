/-
What a reader is made of.

A reader of trees is made of the single steps of a `Reader`, and of readers for
the parts. `Steps` relates what a cursor does with a reader to what another
place in the tokens does with it, step by step. So what every single step has
in common, or keeps, is common to all readers, or kept by them, and is proved
without another look at what they read.

Along the way the loops are cut into rounds (`Repeats`).
-/
import StoryLang.Proofs.Tree.Reading.Statement

namespace StoryLang.Read

variable {S F α β : Type} [Reader S F] {g : Grammar}

/-! ## Single steps -/

/-- The reader `r` at a cursor and the reader `r'` at places of another kind are made of the same
single steps, where `e` is around, but where `r` is out of steps. -/
inductive Steps (S : Type) {F : Type} [Reader S F] (g : Grammar) :
    {α : Type} → Enclosing → Read α → ReadFrom S F α → Prop where
  | spent {α : Type} {e : Enclosing} {r' : ReadFrom S F α} : Steps S g e tooManySteps r'
  | pure {α : Type} {e : Enclosing} (a : α) : Steps S g e (Pure.pure a) (Pure.pure a)
  | current {e : Enclosing} : Steps S g e Reader.current Reader.current
  | following {e : Enclosing} : Steps S g e Reader.following Reader.following
  | take {e : Enclosing} : Steps S g e take take
  | startStatement {e : Enclosing} : Steps S g e startStatement startStatement
  | unexpected {α : Type} {e : Enclosing} (ks : List TokenKind) :
    Steps S g e (unexpected (α := α) g ks) (unexpected g ks)
  | refuse {α : Type} {e : Enclosing} {code : Code} (jump : code.isOutside = true) :
    Steps S g e (refuse (α := α) code) (refuse code)
  | isInLoop {e : Enclosing} : Steps S g e (isInLoop e) (isInLoop e)
  | isInFunction {e : Enclosing} : Steps S g e (isInFunction e) (isInFunction e)
  | bind {α β : Type} {e : Enclosing} {r : Read α} {r' : ReadFrom S F α} {f : α → Read β}
    {f' : α → ReadFrom S F β} (first : Steps S g e r r') (after : ∀ a, Steps S g e (f a) (f' a)) :
    Steps S g e (r >>= f) (r' >>= f')
  | within {α : Type} {e : Enclosing} {r : Read α} {r' : ReadFrom S F α} (inner : Steps S g e r r') :
    Steps S g e (within r) (within r')
  | inLoop {α : Type} {e : Enclosing} {r : Read α} {r' : ReadFrom S F α}
    (inner : Steps S g e.loop r r') : Steps S g e (inLoop r) (inLoop r')
  | inFunction {α : Type} {e : Enclosing} {r : Read α} {r' : ReadFrom S F α}
    (inner : Steps S g .function r r') : Steps S g e (inFunction r) (inFunction r')

/-! ## Rounds of loops -/

/-- A loop is made of rounds: it goes on behind a round that finds a part, and ends with one that
finds none. -/
def Repeats (round : Nat → ReadFrom S F (Option Tree)) (loop : Nat → ReadFrom S F (List Tree)) : Prop :=
  ∀ n, loop (n + 1) = do
    match ← round n with
    | none => return []
    | some t => return t :: (← loop n)

/-- A pair of a name and a value, if a name comes. -/
def argument? (g : Grammar) (value : Nat → ReadFrom S F Tree) : ReadFrom S F (Option Tree) := do
  if ← isAt .name then
    let name ← expectName g
    let _ ← expect g (.symbol .colon)
    let given ← value 0
    if ← isAt (.symbol .comma) then
      let _ ← take
    return some (.of .argument [name, given])
  else return none

/-- An item behind a comma, if one comes. -/
def another? (item : ReadFrom S F Tree) : ReadFrom S F (Option Tree) := do
  if ← isAt (.symbol .comma) then
    let _ ← take
    return some (← item)
  else return none

/-- The items behind the first one. -/
def others (item : ReadFrom S F Tree) (n : Nat) : ReadFrom S F (List Tree) := do
  if ← isAt (.symbol .comma) then
    let _ ← take
    commaSeparated item n
  else return []

/-- A link of a chain, if a `then` comes. -/
def link? (g : Grammar) (value : Nat → ReadFrom S F Tree) (n : Nat) : ReadFrom S F (Option Tree) := do
  if ← isAt (.keyword .thenWord) then
    let word ← leaf
    let name ← expectName g
    let given ← arguments g value n
    return some (.of .mutationFragment [word, name, given])
  else return none

/-- A field or an index, if a dot or a bracket comes. -/
def fragment? (g : Grammar) (value : Nat → ReadFrom S F Tree) : ReadFrom S F (Option Tree) := do
  if ← isAt (.symbol .dot) then
    let dot ← leaf
    let field ← expectName g
    return some (.of .pathFragment [dot, field])
  else if ← isAt (.symbol .leftBracket) then
    let opening ← leaf
    let index ← value 0
    let closing ← expect g (.symbol .rightBracket)
    return some (.of .pathFragment [opening, index, closing])
  else return none

/-- A value extended by one cast or operator, if one comes that binds tighter than `min`. -/
def extended? (g : Grammar) (value : Nat → ReadFrom S F Tree) (min n : Nat) (left : Tree) :
    ReadFrom S F (Option Tree) := do
  if (← isAtCast g) && min < g.castPrecedence then
    let word ← leaf
    return some (.of .cast [left, word, ← types g n])
  else
    match g.operators.between? (← kind) with
    | none => return none
    | some operator =>
      if operator.precedence ≤ min then return none
      else
        let sign ← leaf
        let right ← value operator.rightPrecedence
        let again := (g.operators.between? (← kind)).any
          fun next => next.precedence = operator.precedence
        if operator.grouping = .none && again then unexpected g [.newline]
        return some (.of .binaryExpression [left, sign, right])

variable {value : Nat → ReadFrom S F Tree} {item : ReadFrom S F Tree} {min n : Nat}

omit [Reader S F] in
theorem ite_bind {p : Prop} [Decidable p] (x y : ReadFrom S F α) (f : α → ReadFrom S F β) :
    (if p then x else y) >>= f = if p then x >>= f else y >>= f := by
  split <;> rfl

theorem repeats_argumentList : Repeats (fun _ => argument? g value) (argumentList g value) := by
  intro n
  simp only [argumentList, argument?, ite_bind, bind_assoc, pure_bind]

theorem repeats_others : Repeats (fun _ => another? item) (others item) := by
  intro n
  simp only [others, another?, commaSeparated, ite_bind, bind_assoc, pure_bind]

/-- The first item is read in any case. -/
theorem commaSeparated_succ : commaSeparated item (n + 1) = do
    let first ← item
    return first :: (← others item n) := by
  simp only [commaSeparated, others, ite_bind, bind_assoc, pure_bind]

theorem repeats_links : Repeats (link? g value) (links g value) := by
  intro n
  simp only [links, link?, ite_bind, bind_assoc, pure_bind]

theorem repeats_fragments : Repeats (fun _ => fragment? g value) (fragments g value) := by
  intro n
  simp only [fragments, fragment?, ite_bind, bind_assoc, pure_bind]

theorem climb_succ (left : Tree) :
    climb g value min (n + 1) left = (do
      match ← extended? g value min n left with
      | none => return left
      | some t => climb g value min n t) := by
  simp only [climb, extended?, ite_bind, bind_assoc, pure_bind]
  refine bind_congr fun b => ?_
  split
  · rfl
  refine bind_congr fun k => ?_
  cases g.operators.between? k with
  | none => simp only [pure_bind]
  | some operator => simp only [ite_bind, bind_assoc, pure_bind]

namespace Steps

variable {e : Enclosing} {x y : Read β} {x' y' : ReadFrom S F β}

theorem ite {p : Prop} [Decidable p] (hx : Steps S g e x x') (hy : Steps S g e y y') :
    Steps S g e (if p then x else y) (if p then x' else y') := by
  split
  · exact hx
  · exact hy

theorem leaf : Steps S g e leaf leaf := .bind .take fun _ => .pure _

theorem kind : Steps S g e kind kind := .bind .current fun _ => .pure _

theorem isAt (k : TokenKind) : Steps S g e (isAt k) (isAt k) :=
  .bind .current fun _ => .pure _

theorem isBefore (k : TokenKind) : Steps S g e (isBefore k) (isBefore k) :=
  .bind .following fun _ => .pure _

theorem isAtName : Steps S g e (isAtName g) (isAtName g) :=
  .bind .current fun _ => .pure _

theorem isAtCast : Steps S g e (isAtCast g) (isAtCast g) :=
  .bind .current fun _ => .bind .following fun _ => .pure _

/-- One way or another, as the current token is of a kind or is not. -/
theorem ifAt {k : TokenKind} (hx : Steps S g e x x') (hy : Steps S g e y y') :
    Steps S g e (Read.isAt k >>= fun b => if b = true then x else y)
      (Read.isAt k >>= fun b => if b = true then x' else y') :=
  (isAt k).bind fun _ => .ite hx hy

/-- Going on behind a check. -/
theorem checked {b : Bool} {ks : List TokenKind} {f : PUnit → Read β} {f' : PUnit → ReadFrom S F β}
    (h : ∀ u, Steps S g e (f u) (f' u)) :
    Steps S g e (if b = true then Read.unexpected g ks >>= f else f ⟨⟩)
      (if b = true then Read.unexpected g ks >>= f' else f' ⟨⟩) :=
  .ite ((unexpected ks).bind h) (h ⟨⟩)

theorem expect (k : TokenKind) : Steps S g e (expect g k) (expect g k : ReadFrom S F Tree) :=
  .ifAt .leaf (.unexpected _)

theorem expectName : Steps S g e (expectName g) (expectName g) :=
  isAtName.bind fun _ => .ite .leaf (.unexpected _)

end Steps

variable {e : Enclosing}

/-! ## Readers of values -/

/-- Loops of such rounds. -/
theorem Repeats.steps {k : Nat} {round : Nat → Read (Option Tree)}
    {round' : Nat → ReadFrom S F (Option Tree)} {loop : Nat → Read (List Tree)}
    {loop' : Nat → ReadFrom S F (List Tree)} (h : Repeats round loop) (h' : Repeats round' loop')
    (hround : ∀ n, Steps S g e (round n) (round' (k + n))) (h₀ : loop 0 = tooManySteps) :
    ∀ n, Steps S g e (loop n) (loop' (k + n))
  | 0 => h₀ ▸ .spent
  | n + 1 => by
    rw [h, ← Nat.add_assoc, h']
    refine (hround n).bind fun part => ?_
    cases part with
    | none => exact .pure _
    | some t => exact (Repeats.steps h h' hround h₀ n).bind fun _ => .pure _

theorem commaSeparated_steps {item : Read Tree} {item' : ReadFrom S F Tree} {k : Nat}
    (h : Steps S g e item item') :
    ∀ n, Steps S g e (commaSeparated item n) (commaSeparated item' (k + n))
  | 0 => .spent
  | n + 1 => h.bind fun _ =>
      .ifAt (.bind .take fun _ => (commaSeparated_steps h n).bind fun _ => .pure _) (.pure _)

theorem another?_steps {item : Read Tree} {item' : ReadFrom S F Tree} (h : Steps S g e item item') :
    Steps S g e (another? item) (another? item') :=
  .ifAt (.bind .take fun _ => h.bind fun _ => .pure _) (.pure _)

variable {k : Nat}

theorem types_steps : ∀ n, Steps S g e (types g n) (types g (k + n))
  | 0 => .spent
  | n + 1 => by
    refine (Steps.isAt _).bind fun _ => Steps.isAtName.bind fun _ => .checked fun _ => ?_
    refine .bind .leaf fun _ => .ifAt (.bind .take fun _ => ?_) (.pure _)
    refine (commaSeparated_steps (types_steps n) n).bind fun _ => (Steps.isAt _).bind fun _ => ?_
    exact .checked fun _ => (.bind .take fun _ => .pure _)

section Values

variable {value : Nat → Read Tree} {value' : Nat → ReadFrom S F Tree}
  (hv : ∀ min, Steps S g e (value min) (value' min))

include hv

theorem fragment?_steps : Steps S g e (fragment? g value) (fragment? g value') := by
  refine .ifAt (.bind .leaf fun _ => .bind .expectName fun _ => .pure _) (.ifAt ?_ (.pure _))
  exact .bind .leaf fun _ => (hv 0).bind fun _ => (Steps.expect _).bind fun _ => .pure _

theorem fragments_steps : ∀ n, Steps S g e (fragments g value n) (fragments g value' (k + n)) :=
  repeats_fragments.steps repeats_fragments (fun _ => fragment?_steps hv) rfl

theorem path_steps (n : Nat) : Steps S g e (path g value n) (path g value' (k + n)) :=
  .bind .expectName fun _ => (fragments_steps hv n).bind fun _ => .pure _

theorem argument?_steps : Steps S g e (argument? g value) (argument? g value') := by
  refine .ifAt (.bind .expectName fun _ => (Steps.expect _).bind fun _ => ?_) (.pure _)
  refine (hv 0).bind fun _ => .ifAt (.bind .take fun _ => .pure _) (.pure _)

theorem arguments_steps (n : Nat) : Steps S g e (arguments g value n) (arguments g value' (k + n)) :=
  (repeats_argumentList.steps repeats_argumentList (fun _ => argument?_steps hv) rfl n).bind
    fun _ => .pure _

omit hv in
theorem output_steps (n : Nat) : Steps S g e (output g n) (output g (k + n)) :=
  (Steps.expect _).bind fun _ => (commaSeparated_steps .expectName n).bind fun _ => .pure _

theorem link?_steps (n : Nat) : Steps S g e (link? g value n) (link? g value' (k + n)) := by
  refine .ifAt (.bind .leaf fun _ => .bind .expectName fun _ => ?_) (.pure _)
  exact (arguments_steps hv n).bind fun _ => .pure _

theorem links_steps : ∀ n, Steps S g e (links g value n) (links g value' (k + n)) :=
  repeats_links.steps repeats_links (link?_steps hv) rfl

theorem serviceTail_steps (n : Nat) (t : Tree) :
    Steps S g e (serviceTail g value n t) (serviceTail g value' (k + n) t) := by
  refine .bind .expectName fun _ => (arguments_steps hv n).bind fun _ => ?_
  refine .ifAt ((links_steps hv n).bind fun _ => .pure _) (.ifAt ?_ (.pure _))
  exact (output_steps n).bind fun _ => .pure _

theorem mutationTail_steps (n : Nat) (t : Tree) :
    Steps S g e (mutationTail g value n t) (mutationTail g value' (k + n) t) :=
  .bind .expectName fun _ => (arguments_steps hv n).bind fun _ =>
    (links_steps hv n).bind fun _ => .pure _

theorem callTail_steps (n : Nat) (t : Tree) :
    Steps S g e (callTail g value n t) (callTail g value' (k + n) t) :=
  .ifAt (.ite (serviceTail_steps hv n t) (mutationTail_steps hv n t)) (.pure _)

theorem callOrValue_steps (n : Nat) :
    Steps S g e (callOrValue g value n) (callOrValue g value' (k + n)) :=
  (hv 0).bind fun t => callTail_steps hv n t

omit hv in
/-- The bracket behind some items. -/
theorem closing_steps {ending : TokenKind} {ks : List TokenKind} {rule : Rule} {ts : List Tree} :
    Steps S g e
      (do
        if !(← isAt ending) then unexpected g ks
        return Tree.of rule (ts ++ [← leaf]))
      (do
        if !(← isAt ending) then unexpected g ks
        return Tree.of rule (ts ++ [← leaf])) :=
  (Steps.isAt _).bind fun _ => .checked fun _ => (.bind .leaf fun _ => .pure _)

theorem list_steps (n : Nat) : Steps S g e (list g value n) (list g value' (k + n)) := by
  refine .bind .leaf fun _ => .ifAt ((Steps.pure []).bind fun _ => closing_steps) ?_
  exact (commaSeparated_steps (hv 0) n).bind fun _ => closing_steps

theorem mapItem_steps : Steps S g e (mapItem g value) (mapItem g value') :=
  (hv 0).bind fun _ => (Steps.expect _).bind fun _ => (hv 0).bind fun _ => .pure _

theorem map_steps (n : Nat) : Steps S g e (map g value n) (map g value' (k + n)) := by
  refine .bind .leaf fun _ => .ifAt ((Steps.pure []).bind fun _ => closing_steps) ?_
  exact (commaSeparated_steps (mapItem_steps hv) n).bind fun _ => closing_steps

theorem functionCall_steps (n : Nat) :
    Steps S g e (functionCall g value n) (functionCall g value' (k + n)) := by
  refine .bind .expectName fun _ => (Steps.expect _).bind fun _ => ?_
  refine (arguments_steps hv n).bind fun _ => (Steps.isAt _).bind fun _ => ?_
  exact .checked fun _ => (.bind .leaf fun _ => .pure _)

theorem parenthesized_steps (n : Nat) :
    Steps S g e (parenthesized g value n) (parenthesized g value' (k + n)) :=
  .bind .take fun _ => (callOrValue_steps hv n).bind fun _ =>
    (Steps.expect _).bind fun _ => .pure _

omit hv in
theorem literal_steps (rule : Rule) : Steps S g e (literal rule) (literal rule) :=
  .bind .leaf fun _ => .pure _

theorem prefixed_steps : Steps S g e (prefixed g value) (prefixed g value') := by
  refine Steps.kind.bind fun kind => ?_
  split
  · exact .unexpected _
  · exact .bind .leaf fun _ => (hv _).bind fun _ => .pure _

theorem operand_steps (n : Nat) : Steps S g e (operand g value n) (operand g value' (k + n)) := by
  refine Steps.kind.bind fun kind => ?_
  split
  · exact (Steps.isBefore _).bind fun _ => .ite (functionCall_steps hv n) (path_steps hv n)
  · exact literal_steps _
  · exact literal_steps _
  · exact literal_steps _
  · exact literal_steps _
  · exact literal_steps _
  · exact literal_steps _
  · exact list_steps hv n
  · exact map_steps hv n
  · exact parenthesized_steps hv n
  · exact prefixed_steps hv

theorem extended?_steps (min n : Nat) (t : Tree) :
    Steps S g e (extended? g value min n t) (extended? g value' min (k + n) t) := by
  refine Steps.isAtCast.bind fun _ => .ite ?_ (Steps.kind.bind fun kind => ?_)
  · exact .bind .leaf fun _ => (types_steps n).bind fun _ => .pure _
  dsimp only
  split
  · exact .pure _
  refine .ite (.pure _) (.bind .leaf fun _ => (hv _).bind fun _ => Steps.kind.bind fun _ => ?_)
  exact .checked fun _ => (.pure _)

theorem climb_steps (min : Nat) :
    ∀ (n : Nat) (t : Tree), Steps S g e (climb g value min n t) (climb g value' min (k + n) t)
  | 0, _ => .spent
  | n + 1, t => by
    rw [climb_succ, ← Nat.add_assoc, climb_succ]
    refine (extended?_steps hv min n t).bind fun part => ?_
    cases part with
    | none => exact .pure _
    | some t => exact climb_steps min n t

end Values

theorem expression_steps : ∀ n min, Steps S g e (expression g n min) (expression g (k + n) min)
  | 0, _ => .spent
  | n + 1, min => (operand_steps (expression_steps n) n).bind fun t =>
      climb_steps (expression_steps n) min n t

theorem anyValue_steps (n : Nat) : Steps S g e (anyValue g n) (anyValue g (k + n)) :=
  callOrValue_steps (expression_steps n) n

/-! ## Readers of statements -/

theorem valueStatement_steps (n : Nat) (t : Tree) :
    Steps S g e (valueStatement g n t) (valueStatement g (k + n) t) :=
  .ifAt (callTail_steps (expression_steps n) n t) (.ite (.pure _) (.pure _))

theorem simple_steps (n : Nat) : Steps S g e (simple g n) (simple g (k + n)) := by
  refine (Steps.isAt _).bind fun _ => (Steps.isBefore _).bind fun _ => .ite ?_ ?_
  · refine (path_steps (expression_steps n) n).bind fun target => .ifAt ?_ (.ifAt ?_ ?_)
    · exact .bind .leaf fun _ => (anyValue_steps n).bind fun _ => .pure _
    · exact serviceTail_steps (expression_steps n) n target
    · exact (climb_steps (expression_steps n) 0 n target).bind fun t => valueStatement_steps n t
  · exact (expression_steps n 0).bind fun t => valueStatement_steps n t

theorem jumpWithValue_steps (rule : Rule) (n : Nat) :
    Steps S g e (jumpWithValue g rule n) (jumpWithValue g rule (k + n)) := by
  refine .bind .leaf fun _ => .ifAt ((Steps.pure []).bind fun _ => ?_) ?_
  · exact (Steps.expect _).bind fun _ => .pure _
  · refine (anyValue_steps n).bind fun _ => (Steps.pure _).bind fun _ => ?_
    exact (Steps.expect _).bind fun _ => .pure _

theorem returnStatement_steps (e : Enclosing) (n : Nat) :
    Steps S g e (returnStatement g e n) (returnStatement g e (k + n)) :=
  .bind .isInFunction fun _ => .ite (jumpWithValue_steps _ n) (.refuse rfl)

theorem loopJump_steps (e : Enclosing) (rule : Rule) {outside : Code}
    (h : outside.isOutside = true) :
    Steps S g e (loopJump g e rule outside) (loopJump g e rule outside) :=
  .bind .isInLoop fun _ =>
    .ite (.bind .leaf fun _ => (Steps.expect _).bind fun _ => .pure _) (.refuse h)

theorem importStatement_steps : Steps S g e (importStatement g) (importStatement g) := by
  refine .bind .leaf fun _ => (Steps.isAt _).bind fun _ => .checked fun _ => .bind .leaf fun _ => ?_
  refine (Steps.expect _).bind fun _ => .bind .expectName fun _ => ?_
  exact (Steps.expect _).bind fun _ => .pure _

theorem parameters_steps (bound : Nat) :
    ∀ n, Steps S g e (parameters g bound n) (parameters g (k + bound) (k + n))
  | 0 => .spent
  | n + 1 => by
    refine .ifAt (.bind .expectName fun _ => (Steps.expect _).bind fun _ => ?_) (.pure _)
    exact (types_steps bound).bind fun _ => (parameters_steps bound n).bind fun _ => .pure _

theorem returnType_steps (n : Nat) : Steps S g e (returnType g n) (returnType g (k + n)) :=
  .ifAt (.bind .leaf fun _ => (types_steps n).bind fun _ => .pure _) (.pure _)

section Blocks

variable {stmt : Read Tree} {stmt' : ReadFrom S F Tree} (hs : Steps S g e stmt stmt')

include hs

theorem statements_steps : ∀ n, Steps S g e (statements stmt n) (statements stmt' (k + n))
  | 0 => .spent
  | n + 1 => by
    refine (Steps.isAt _).bind fun _ => (Steps.isAt _).bind fun _ => .ite (.pure _) ?_
    exact hs.bind fun _ => (statements_steps n).bind fun _ => .pure _

theorem indented_steps (n : Nat) : Steps S g e (indented g stmt n) (indented g stmt' (k + n)) := by
  refine .within ((Steps.expect _).bind fun _ => (statements_steps hs n).bind fun _ => ?_)
  exact (Steps.expect _).bind fun _ => .pure _

theorem block_steps (n : Nat) : Steps S g e (block g stmt n) (block g stmt' (k + n)) :=
  (Steps.expect _).bind fun _ => indented_steps hs n

theorem simpleStatement_steps (n : Nat) :
    Steps S g e (simpleStatement g stmt n) (simpleStatement g stmt' (k + n)) := by
  refine (simple_steps n).bind fun _ => (Steps.isAt _).bind fun _ => .checked fun _ => ?_
  refine .bind .take fun _ => (Steps.isAt _).bind fun _ => .ite ?_ (.pure _)
  exact (indented_steps hs n).bind fun _ => .pure _

theorem branches_steps (bound : Nat) :
    ∀ n, Steps S g e (branches g stmt bound n) (branches g stmt' (k + bound) (k + n))
  | 0 => .spent
  | n + 1 => by
    refine .ifAt (.bind .startStatement fun _ => .bind .leaf fun _ => .ifAt ?_ ?_) (.pure _)
    · refine .bind .leaf fun _ => (expression_steps bound 0).bind fun _ => ?_
      refine (block_steps hs bound).bind fun _ => (branches_steps bound n).bind fun _ => .pure _
    · exact (block_steps hs bound).bind fun _ => .pure _

theorem ifBlock_steps (n : Nat) : Steps S g e (ifBlock g stmt n) (ifBlock g stmt' (k + n)) := by
  refine .bind .leaf fun _ => (expression_steps n 0).bind fun _ => (block_steps hs n).bind fun _ => ?_
  exact (branches_steps hs n n).bind fun _ => .pure _

omit hs in
theorem foreachBlock_steps (hs : Steps S g e.loop stmt stmt') (n : Nat) :
    Steps S g e (foreachBlock g stmt n) (foreachBlock g stmt' (k + n)) := by
  refine .bind .leaf fun _ => (expression_steps n 0).bind fun _ => (Steps.isAt _).bind fun _ => ?_
  refine .checked fun _ => (output_steps n).bind fun _ => ?_
  exact (block_steps hs n).inLoop.bind fun _ => .pure _

omit hs in
theorem whileBlock_steps (hs : Steps S g e.loop stmt stmt') (n : Nat) :
    Steps S g e (whileBlock g stmt n) (whileBlock g stmt' (k + n)) :=
  .bind .leaf fun _ => (expression_steps n 0).bind fun _ => (block_steps hs n).inLoop.bind fun _ =>
    .pure _

theorem catchBlock_steps (n : Nat) :
    Steps S g e (catchBlock g stmt n) (catchBlock g stmt' (k + n)) := by
  refine .bind .startStatement fun _ => .bind .leaf fun _ => .ifAt ?_ ?_
  · exact (output_steps n).bind fun _ => (block_steps hs n).bind fun _ => .pure _
  · exact (block_steps hs n).bind fun _ => .pure _

theorem finallyBlock_steps (n : Nat) :
    Steps S g e (finallyBlock g stmt n) (finallyBlock g stmt' (k + n)) :=
  .bind .startStatement fun _ => .bind .leaf fun _ => (block_steps hs n).bind fun _ => .pure _

/-- The `finally` behind the other parts of a `try`. -/
theorem ended_steps (n : Nat) (ts : List Tree) :
    Steps S g e
      (do
        let after ←
          if ← isAt (.keyword .finallyWord) then pure [← finallyBlock g stmt n] else pure []
        return Tree.of .tryBlock (ts ++ after))
      (do
        let after ←
          if ← isAt (.keyword .finallyWord) then pure [← finallyBlock g stmt' (k + n)] else pure []
        return Tree.of .tryBlock (ts ++ after)) := by
  refine .ifAt ((finallyBlock_steps hs n).bind fun _ => ?_) ?_
  all_goals exact (Steps.pure _).bind fun _ => .pure _

theorem tryBlock_steps (n : Nat) : Steps S g e (tryBlock g stmt n) (tryBlock g stmt' (k + n)) := by
  refine .bind .leaf fun _ => (block_steps hs n).bind fun _ => .ifAt ?_ ?_
  · exact (catchBlock_steps hs n).bind fun _ => (Steps.pure _).bind fun _ => ended_steps hs n _
  · exact (Steps.pure _).bind fun _ => ended_steps hs n _

omit hs in
theorem functionBlock_steps (hs : Steps S g .function stmt stmt') (n : Nat) :
    Steps S g e (functionBlock g stmt n) (functionBlock g stmt' (k + n)) := by
  refine .bind .leaf fun _ => .bind .expectName fun _ => (parameters_steps n n).bind fun _ => ?_
  exact (returnType_steps n).bind fun _ => (block_steps hs n).inFunction.bind fun _ => .pure _

theorem whenBlock_steps (n : Nat) : Steps S g e (whenBlock g stmt n) (whenBlock g stmt' (k + n)) := by
  refine .bind .leaf fun _ => (path_steps (expression_steps n) n).bind fun _ => ?_
  refine .bind .expectName fun _ => (arguments_steps (expression_steps n) n).bind fun _ => .ifAt ?_ ?_
  · exact (output_steps n).bind fun _ => (block_steps hs n).bind fun _ => .pure _
  · exact (block_steps hs n).bind fun _ => .pure _

theorem storyStatements_steps :
    ∀ n, Steps S g e (storyStatements stmt n) (storyStatements stmt' (k + n))
  | 0 => .spent
  | n + 1 => .ifAt (.pure _) (hs.bind fun _ => (storyStatements_steps n).bind fun _ => .pure _)

end Blocks

theorem statementBody_steps {stmt : Enclosing → Read Tree} {stmt' : Enclosing → ReadFrom S F Tree}
    (hs : ∀ e, Steps S g e (stmt e) (stmt' e)) (n : Nat) (e : Enclosing) :
    Steps S g e (statementBody g stmt n e) (statementBody g stmt' (k + n) e) := by
  refine Steps.kind.bind fun kind => ?_
  split
  · exact ifBlock_steps (hs _) n
  · exact foreachBlock_steps (hs _) n
  · exact whileBlock_steps (hs _) n
  · exact tryBlock_steps (hs _) n
  · exact functionBlock_steps (hs _) n
  · exact whenBlock_steps (hs _) n
  · exact returnStatement_steps e n
  · exact loopJump_steps e _ rfl
  · exact loopJump_steps e _ rfl
  · exact jumpWithValue_steps _ n
  · exact importStatement_steps
  · exact simpleStatement_steps (hs _) n

theorem statement_steps : ∀ n e, Steps S g e (statement g n e) (statement g (k + n) e)
  | 0, _ => .spent
  | n + 1, e => .bind .startStatement fun _ => statementBody_steps (statement_steps n) n e

theorem story_steps (n : Nat) : Steps S g .story (story g n) (story g (k + n)) :=
  (storyStatements_steps (statement_steps n .story) n).bind fun _ => .pure _

theorem fragment_steps (n : Nat) : Steps S g e (fragment g n) (fragment g (k + n)) :=
  (anyValue_steps n).bind fun _ => (Steps.isAt _).bind fun _ => (Steps.isAt _).bind fun _ =>
    .ite (.pure _) (.unexpected _)

end StoryLang.Read
