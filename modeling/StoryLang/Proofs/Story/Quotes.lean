/-
Strings between apostrophes are a conservative feature.

An apostrophe outside of strings and comments starts nothing unless strings may
stand between apostrophes. So a scan that succeeds without the feature meets no
such apostrophe, and it goes through the same states with it. That holds for a
story and for the code of every string, and the code of a string is found with
both quotes anyway.

What is then made of the tokens does not ask for the feature. Checking asks
whether function bodies see the variables of the story, and whether conditions
have to be boolean, and that in two places only: where a name is looked up and
where a condition is judged. So a story that compiles without the feature
compiles in the same way with it.
-/
import StoryLang.Check.Statement
import StoryLang.Proofs.Follows
import StoryLang.Proofs.Token.Layout
import StoryLang.Story.Basic

/-! ## Checking -/

namespace StoryLang

/-- The features with strings between apostrophes allowed or not. -/
def Features.quoting (f : Features) (allowed : Bool) : Features := { f with singleQuotes := allowed }

namespace Check

/-- The environment under such features. -/
def Env.quoting (e : Env) (allowed : Bool) : Env := { e with features := e.features.quoting allowed }

variable {e : Env} {allowed : Bool}

@[simp] theorem lookup_quoting (name : String) : lookup (e.quoting allowed) name = lookup e name := rfl

@[simp] theorem commandCall_quoting (service : String) (place : Position) (command : Option Token)
    (supplied : List Supplied) :
    commandCall (e.quoting allowed) service place command supplied =
      commandCall e service place command supplied := rfl

@[simp] theorem functionCall_quoting (name : Option Token) (supplied : List Supplied) :
    functionCall (e.quoting allowed) name supplied = functionCall e name supplied := rfl

/-! ## Values -/

mutual

theorem value_quoting : ∀ t : Tree, value (e.quoting allowed) t = value e t
  | .token _ => rfl
  | .node rule line ps => by
    cases rule <;>
      simp only [value, firsts_quoting, entries_quoting, fragments_quoting, argumentsOf_quoting,
        mutation_quoting, callAsMutation_quoting, lookup_quoting, commandCall_quoting,
        functionCall_quoting]

theorem firsts_quoting : ∀ (n : Nat) (ts : List Tree),
    firsts (e.quoting allowed) n ts = firsts e n ts
  | _, [] => by simp only [firsts]
  | n, .token t :: ts => by simp only [firsts, firsts_quoting n ts]
  | 0, .node _ _ _ :: ts => by simp only [firsts]
  | n + 1, .node r l ps :: ts => by
    simp only [firsts, value_quoting (.node r l ps), firsts_quoting n ts]

theorem entries_quoting : ∀ ts : List Tree, entries (e.quoting allowed) ts = entries e ts
  | [] => by simp only [entries]
  | .token t :: ts => by simp only [entries, entries_quoting ts]
  | .node r l ps :: ts => by simp only [entries, firsts_quoting 2 ps, entries_quoting ts]

theorem fragments_quoting : ∀ (ty : Ty) (ts : List Tree),
    fragments (e.quoting allowed) ty ts = fragments e ty ts
  | _, [] => by simp only [fragments]
  | ty, .token t :: ts => by simp only [fragments, fragments_quoting _ ts]
  | ty, .node r l ps :: ts => by
    simp only [fragments, firsts_quoting 1 ps, fragments_quoting _ ts]

theorem argumentsOf_quoting : ∀ ts : List Tree,
    argumentsOf (e.quoting allowed) ts = argumentsOf e ts
  | [] => by simp only [argumentsOf]
  | .token t :: ts => by simp only [argumentsOf, argumentsOf_quoting ts]
  | .node r l ps :: ts => by
    cases r <;> simp only [argumentsOf, suppliedBy_quoting [] ps, argumentsOf_quoting ts]

theorem suppliedBy_quoting : ∀ (seen : List String) (ts : List Tree),
    suppliedBy (e.quoting allowed) seen ts = suppliedBy e seen ts
  | _, [] => by simp only [suppliedBy]
  | seen, .token t :: ts => by simp only [suppliedBy, suppliedBy_quoting _ ts]
  | seen, .node r l ps :: ts => by
    simp only [suppliedBy, firsts_quoting 1 ps, suppliedBy_quoting _ ts]

theorem mutation_quoting : ∀ ts : List Tree, mutation (e.quoting allowed) ts = mutation e ts
  | [] => by simp only [mutation]
  | .token t :: ts => by simp only [mutation, mutation_quoting ts]
  | .node r l ps :: ts => by
    simp only [mutation, value_quoting (.node r l ps), links_quoting _ ts]

theorem links_quoting : ∀ (ty : Ty) (ts : List Tree),
    links (e.quoting allowed) ty ts = links e ty ts
  | _, [] => by simp only [links]
  | ty, .token t :: ts => by simp only [links, links_quoting _ ts]
  | ty, .node r l ps :: ts => by
    cases r <;> simp only [links, argumentsOf_quoting ps, links_quoting _ ts]

theorem callAsMutation_quoting : ∀ ts : List Tree,
    callAsMutation (e.quoting allowed) ts = callAsMutation e ts
  | [] => by simp only [callAsMutation]
  | .token t :: ts => by simp only [callAsMutation, links_quoting _ ts]
  | .node r l ps :: ts => by
    simp only [callAsMutation, value_quoting (.node r l ps), argumentsOf_quoting ts,
      links_quoting _ ts]

end

/-! ## Statements -/

theorem nodeValue_quoting (i : Nat) (parts : List Tree) :
    nodeValue (e.quoting allowed) i parts = nodeValue e i parts := by
  simp only [nodeValue, value_quoting]

theorem condition_quoting (t : Tree) : condition (e.quoting allowed) t = condition e t := by
  simp only [condition, value_quoting]
  rfl

theorem assignment_quoting (t : Tree) (parts : List Tree) :
    assignment (e.quoting allowed) t parts = assignment e t parts := by
  simp only [assignment, nodeValue_quoting, value_quoting, lookup_quoting]

theorem listening_quoting (root : Token) (event : Option Token) (supplied : List Supplied) :
    listening (e.quoting allowed) root event supplied = listening e root event supplied := rfl

theorem returned_quoting (parts : List Tree) :
    returned (e.quoting allowed) parts = returned e parts := by
  simp only [returned, nodeValue_quoting]
  rfl

mutual

theorem statement_quoting : ∀ (e : Env) (t : Tree), statement (e.quoting allowed) t = statement e t
  | _, .token _ => by simp only [statement]
  | e, .node rule line ps => by
    -- the body of a function is checked in an environment of its own
    have inside (body : Body) : bodyOf { e.quoting allowed with body := some body } ps =
        bodyOf { e with body := some body } ps := bodyOf_quoting { e with body := some body } ps
    cases rule <;>
      simp only [statement, assignment_quoting, value_quoting, condition_quoting, nodeValue_quoting,
        argumentsOf_quoting, listening_quoting, returned_quoting, branches_quoting e ps,
        handlers_quoting e ps, bodyOf_quoting e ps, blockOf_quoting e ps, inside]

theorem statements_quoting : ∀ (e : Env) (flow : Flow) (ts : List Tree),
    statements (e.quoting allowed) flow ts = statements e flow ts
  | _, _, [] => by simp only [statements]
  | e, flow, .token t :: ts => by simp only [statements, statements_quoting e _ ts]
  | e, flow, .node r l ps :: ts => by
    simp only [statements, statement_quoting e (.node r l ps), statements_quoting e _ ts]

theorem bodyOf_quoting : ∀ (e : Env) (ts : List Tree), bodyOf (e.quoting allowed) ts = bodyOf e ts
  | _, [] => by simp only [bodyOf]
  | e, .token _ :: ts => by simp only [bodyOf, bodyOf_quoting e ts]
  | e, .node r l ps :: ts => by
    cases r <;> simp only [bodyOf, statements_quoting e _ ps, bodyOf_quoting e ts]

theorem blockOf_quoting : ∀ (e : Env) (ts : List Tree), blockOf (e.quoting allowed) ts = blockOf e ts
  | _, [] => by simp only [blockOf]
  | e, .token _ :: ts => by simp only [blockOf, blockOf_quoting e ts]
  | e, .node r l ps :: ts => by
    cases r <;> simp only [blockOf, statements_quoting e _ ps, blockOf_quoting e ts]

theorem branches_quoting : ∀ (e : Env) (ts : List Tree),
    branches (e.quoting allowed) ts = branches e ts
  | _, [] => by simp only [branches]
  | e, .token _ :: ts => by simp only [branches, branches_quoting e ts]
  | e, .node r l ps :: ts => by
    cases r <;>
      simp only [branches, condition_quoting, statements_quoting e _ ps, branch_quoting e ps,
        blockOf_quoting e ps, branches_quoting e ts]

theorem branch_quoting : ∀ (e : Env) (ts : List Tree), branch (e.quoting allowed) ts = branch e ts
  | _, [] => by simp only [branch]
  | e, .token _ :: ts => by simp only [branch, branch_quoting e ts]
  | e, .node r l ps :: ts => by
    cases r <;>
      simp only [branch, condition_quoting, statements_quoting e _ ps, branch_quoting e ts]

theorem handlers_quoting : ∀ (e : Env) (ts : List Tree),
    handlers (e.quoting allowed) ts = handlers e ts
  | _, [] => by simp only [handlers]
  | e, .token _ :: ts => by simp only [handlers, handlers_quoting e ts]
  | e, .node r l ps :: ts => by
    cases r <;>
      simp only [handlers, statements_quoting e _ ps, bodyOf_quoting e ps, blockOf_quoting e ps,
        handlers_quoting e ts]

end

/-- A story is checked in the same way whether strings may stand between apostrophes or not. -/
theorem story_quoting (f : Features) (registry : Option Registry) (root : Scope) (t : Tree) :
    story (f.quoting allowed) registry root t = story f registry root t := by
  have htree : tree (f.quoting allowed) registry t = tree f registry t := by
    unfold tree
    refine bind_congr fun functions => bind_congr fun _ => ?_
    let e : Env := ⟨f, registry, functions, none⟩
    cases t with
    | token t => rfl
    | node rule line ps =>
      simp only [show Env.mk (f.quoting allowed) registry functions none = e.quoting allowed from rfl,
        statements_quoting e .open ps, e]
  unfold story
  rw [htree]

end Check

end StoryLang

/-! ## Scanning -/

namespace StoryLang

/-! ## Settings -/

/-- Strings may stand between apostrophes in addition, and the rest is the same. -/
structure Features.Extends (f f' : Features) : Prop where
  singleQuotes : f.singleQuotes = true → f'.singleQuotes = true
  globals : f'.globals = f.globals
  strictConditions : f'.strictConditions = f.strictConditions

namespace Features

variable {f f' : Features}

theorem Extends.refl (f : Features) : f.Extends f := ⟨id, rfl, rfl⟩

theorem Extends.eq_quoting (h : f.Extends f') : f' = f.quoting f'.singleQuotes := by
  obtain ⟨q, g, s⟩ := f'
  obtain ⟨-, rfl, rfl⟩ := h
  rfl

theorem extends_quoting (f : Features) : (f.quoting false).Extends (f.quoting true) :=
  ⟨fun _ => rfl, rfl, rfl⟩

theorem extends_set (h : f.Extends f') (name : String) (value : Bool) :
    EndAlike Eq Extends (f.set name value) (f'.set name value) := by
  unfold set
  split
  · exact .ok ⟨id, h.globals, h.strictConditions⟩
  split
  · exact .ok ⟨h.singleQuotes, rfl, h.strictConditions⟩
  split
  · exact .ok ⟨h.singleQuotes, h.globals, rfl⟩
  · exact .error rfl

theorem extends_applySetting (h : f.Extends f') (setting : List Char) :
    EndAlike Eq Extends (f.applySetting setting) (f'.applySetting setting) := by
  unfold applySetting
  dsimp only
  split
  · exact .error rfl
  · exact extends_set h _ _

theorem extends_applyLines (h : f.Extends f') (lines : List (List Char)) :
    EndAlike Eq Extends (f.applyLines lines) (f'.applyLines lines) := by
  induction lines generalizing f f' with
  | nil => exact .ok h
  | cons raw rest ih =>
    unfold applyLines
    dsimp only
    split
    · exact (extends_applySetting h _).bind fun _ _ hset => ih hset
    split
    · exact ih h
    · exact .ok h

end Features

/-! ## Scanning -/

/-- Strings may stand between apostrophes in addition. -/
structure ScanMode.Extends (m m' : ScanMode) : Prop where
  grammar : m'.grammar = m.grammar
  singleQuotes : m.singleQuotes = true → m'.singleQuotes = true

namespace Scan.State

variable {m m' : ScanMode} {s : State} {c : Char} {rest : List Char}

/-- No symbol starts with an apostrophe. -/
theorem ofText?_apostrophe (cs : List Char) : Symbol.ofText? (String.ofList ('\'' :: cs)) = none := by
  refine Option.eq_none_iff_forall_ne_some.2 fun symbol h => ?_
  have hall : ∀ s ∈ Symbol.all, s.text.toList.head? ≠ some '\'' := by decide
  have htext : symbol.text = String.ofList ('\'' :: cs) := by simpa using List.find?_some h
  exact hall symbol (Symbol.mem_all symbol) (by rw [htext, String.toList_ofList]; rfl)

theorem readSymbol_apostrophe (s : State) (rest : List Char) :
    s.readSymbol '\'' rest = s.stop (.invalidCharacter '\'') s.spot.place := by
  have hpair : (rest.head?.bind fun d => (pair? '\'' d).map fun symbol => (symbol, ['\'', d])) = none := by
    cases rest with
    | nil => rfl
    | cons d rest => simp only [List.head?_cons, Option.bind_some, pair?, ofText?_apostrophe, Option.map_none]
  have hsingle : single? '\'' = none := ofText?_apostrophe []
  unfold readSymbol
  rw [hpair, hsingle]

/-- Without the feature an apostrophe starts nothing. -/
theorem readNext_apostrophe (hm : m.singleQuotes = false) (s : State) (rest : List Char) :
    s.readNext m '\'' rest = s.stop (.invalidCharacter '\'') s.spot.place := by
  have hword : Grammar.isWordStart '\'' = false := by decide
  have hdigit : Text.isDigit '\'' = false := by decide
  unfold readNext
  simp [hm, hword, hdigit, readSymbol_apostrophe]

theorem readNext_extends (hm : m.Extends m') {t : State} (h : s.readNext m c rest = .ok t) :
    s.readNext m' c rest = .ok t := by
  by_cases hc : c = '\''
  · subst hc
    cases hq : m.singleQuotes with
    | false =>
      rw [readNext_apostrophe hq] at h
      cases h
    | true =>
      unfold readNext at h ⊢
      simpa [hq, hm.singleQuotes hq, hm.grammar] using h
  · unfold readNext at h ⊢
    simpa [hc, hm.grammar] using h

theorem onLine_extends (hm : m.Extends m') {p out : State × Bool} (h : onLine m p = .ok out) :
    onLine m' p = .ok out := by
  unfold onLine
  rcases onLine_ok h with ⟨hno, rfl⟩ | ⟨hyes, ⟨hr, rfl⟩ | ⟨c, rest, t, hr, hn, rfl⟩⟩
  · simp [hno]
  · simp [hyes, hr]
  · simp [hyes, hr, readNext_extends hm hn, Except.map]

theorem step_extends (hm : m.Extends m') {fuel : Nat} {out : State × Bool}
    (h : s.step m fuel = .ok out) : s.step m' fuel = .ok out := by
  rw [step_eq] at h ⊢
  cases hline : if s.atLineStart then s.startLine fuel else .ok (s, true) with
  | error stop =>
    rw [hline] at h
    cases h
  | ok p =>
    rw [hline] at h
    exact onLine_extends hm h

theorem run_extends (hm : m.Extends m') {fuel : Nat} {tokens : List Token}
    (h : (s.run m fuel).tokens = .ok tokens) : s.run m' fuel = s.run m fuel := by
  induction fuel generalizing s with
  | zero => rfl
  | succ fuel ih =>
    unfold run at h ⊢
    cases hs : s.step m (fuel + 1) with
    | error stop =>
      rw [hs] at h
      cases h
    | ok out =>
      rw [hs] at h
      rw [step_extends hm hs]
      obtain ⟨t, more⟩ := out
      cases more with
      | false => rfl
      | true => exact ih h

end Scan.State

/-- A text whose tokens are found without the feature is scanned in the same way with it. -/
theorem scan_extends {m m' : ScanMode} (hm : m.Extends m') {text : List Char} {tokens : List Token}
    (h : (scan m text).tokens = .ok tokens) : scan m' text = scan m text :=
  Scan.State.run_extends hm h

/-! ## Plain trees -/

namespace Hoist

variable {m m' : ScanMode} {code code' : Nat → Tree → Hoist (Out Tree)} {α : Type}

/-- What the first gives, the second gives too. -/
abbrev Gives (x x' : Hoist α) : Prop := Follows Eq Eq x x'

theorem readCode_extends (hm : m.Extends m') {source : List Char} {start : Position} {v : Tree}
    (h : readCode m source start = .ok v) : readCode m' source start = .ok v := by
  unfold readCode at h ⊢
  cases hs : (scan m source).tokens with
  | error f =>
    rw [hs] at h
    cases h
  | ok tokens =>
    rw [hs] at h
    rw [scan_extends hm hs, hs, hm.grammar]
    exact h

theorem piece_gives (hm : m.Extends m') {c c' : Tree → Hoist (Out Tree)} (hc : ∀ t, Gives (c t) (c' t))
    (t : Token) (p : Piece) : Gives (piece m c t p) (piece m' c' t p) := by
  cases p with
  | text raw => exact .refl _
  | code source offset =>
    unfold piece
    dsimp only
    cases hr : readCode m source ⟨t.line, t.column + 1 + offset⟩ with
    | error f => exact .of_error fun _ _ _ h => by cases h
    | ok v =>
      rw [readCode_extends hm hr]
      exact (hc v).bindSame fun _ => .refl _

theorem pieces_gives (hm : m.Extends m') {c c' : Tree → Hoist (Out Tree)} (hc : ∀ t, Gives (c t) (c' t))
    (t : Token) (ps : List Piece) : Gives (pieces m c t ps) (pieces m' c' t ps) := by
  induction ps with
  | nil => exact .refl _
  | cons p ps ih => exact (piece_gives hm hc t p).bindSame fun _ => ih.bindSame fun _ => .refl _

theorem string_gives (hm : m.Extends m') {c c' : Tree → Hoist (Out Tree)} (hc : ∀ t, Gives (c t) (c' t))
    (line : Option Coord) (parts : List Tree) : Gives (string m c line parts) (string m' c' line parts) := by
  unfold string
  split
  · split
    · exact (pieces_gives hm hc _ _).bindSame fun _ => .refl _
    · exact .refl _
  · exact .refl _

/-- What the first makes of a string, the second makes of it too. -/
def StringsGive (m m' : ScanMode) (code code' : Nat → Tree → Hoist (Out Tree)) : Prop :=
  ∀ base line parts, Gives (string m (code base) line parts) (string m' (code' base) line parts)

mutual

theorem tree_gives (hs : StringsGive m m' code code') : ∀ (base : Nat) (role : Role) (t : Tree),
    Gives (tree m code base role t) (tree m' code' base role t)
  | _, _, .token t => by
    unfold tree
    exact .refl _
  | base, role, .node rule line ps => by
    have one {x x' : Hoist (Out Tree)} (hx : Gives x x') (f : Out Tree → Hoist (Out Tree)) :
        Gives (x >>= f) (x' >>= f) := hx.bindSame fun a => .refl (f a)
    have row {x x' : Hoist (Out (List Tree))} (hx : Gives x x') (f : Out (List Tree) → Hoist (Out Tree)) :
        Gives (x >>= f) (x' >>= f) := hx.bindSame fun a => .refl (f a)
    unfold tree
    cases treatment role rule with
    | parts => exact row (parts_gives hs base ps) _
    | partsOut => exact row (parts_gives hs base ps) _
    | lastAs lastRole =>
      dsimp only
      split
      · exact row (partsLast_gives hs base lastRole ps) _
      · exact .refl _
    | chain => exact links_gives hs base ps
    | chainOut => exact one (links_gives hs base ps) _
    | values =>
      match ps with
      | [] => exact row (values_gives hs base []) _
      | [.token t] => exact row (values_gives hs base [.token t]) _
      | [.node inner line' ps'] =>
        exact (tree_gives hs base .value (.node inner line' ps')).ite (one (tree_gives hs base .value _) _)
      | .token t :: u :: ts => exact row (values_gives hs base (.token t :: u :: ts)) _
      | .node r l qs :: u :: ts => exact row (values_gives hs base (.node r l qs :: u :: ts)) _
    | string => exact hs base line ps
    | statements => exact (statements_gives hs ps).bindSame fun _ => .refl _
    | guarded construct =>
      dsimp only
      split
      · exact .refl _
      · exact row (parts_gives hs base ps) _

theorem parts_gives (hs : StringsGive m m' code code') : ∀ (base : Nat) (ts : List Tree),
    Gives (parts m code base ts) (parts m' code' base ts)
  | _, [] => by
    unfold parts
    exact .refl _
  | base, t :: ts => by
    unfold parts
    exact (tree_gives hs base .part t).bindSame fun _ => (parts_gives hs base ts).bindSame fun _ => .refl _

theorem partsLast_gives (hs : StringsGive m m' code code') : ∀ (base : Nat) (role : Role) (ts : List Tree),
    Gives (partsLast m code base role ts) (partsLast m' code' base role ts)
  | _, _, [] => by
    unfold partsLast
    exact .refl _
  | base, role, [last] => by
    unfold partsLast
    exact (tree_gives hs base role last).bindSame fun _ => .refl _
  | base, role, t :: u :: ts => by
    unfold partsLast
    exact (tree_gives hs base .part t).bindSame fun _ =>
      (partsLast_gives hs base role (u :: ts)).bindSame fun _ => .refl _

theorem values_gives (hs : StringsGive m m' code code') : ∀ (base : Nat) (ts : List Tree),
    Gives (values m code base ts) (values m' code' base ts)
  | _, [] => by
    unfold values
    exact .refl _
  | base, t :: ts => by
    unfold values
    exact (tree_gives hs base .value t).bindSame fun _ => (values_gives hs base ts).bindSame fun _ => .refl _

theorem fragments_gives (hs : StringsGive m m' code code') : ∀ (base : Nat) (ts : List Tree),
    Gives (fragments m code base ts) (fragments m' code' base ts)
  | _, [] => by
    unfold fragments
    exact .refl _
  | base, .token _ :: ts => by
    unfold fragments
    exact fragments_gives hs base ts
  | base, .node _ _ ps :: ts => by
    unfold fragments
    exact (parts_gives hs base ps).bindSame fun _ => (fragments_gives hs base ts).bindSame fun _ => .refl _

theorem links_gives (hs : StringsGive m m' code code') : ∀ (base : Nat) (ts : List Tree),
    Gives (links m code base ts) (links m' code' base ts)
  | _, [] => by
    unfold links
    exact .refl _
  | _, .token _ :: _ => by
    unfold links
    exact .refl _
  | base, .node rule line ps :: ts => by
    unfold links
    have behind (subject : Out Tree) := (fragments_gives hs base ts).bindSame fun found =>
      .refl (chain base firstLink (subject.before ++ found.before) subject.left found.left)
    refine .ite ((parts_gives hs base ps).bindSame fun _ => ?_) ?_
    · exact (Follows.refl _).bindSame behind
    · exact (tree_gives hs base .operand (.node rule line ps)).bindSame behind

theorem statements_gives (hs : StringsGive m m' code code') : ∀ ts : List Tree, Gives (statements m code ts) (statements m' code' ts)
  | [] => by
    unfold statements
    exact .refl _
  | .token _ :: ts => by
    unfold statements
    exact (statements_gives hs ts).bindSame fun _ => .refl _
  | .node rule line ps :: ts => by
    unfold statements
    exact (tree_gives hs _ .statement (.node rule line ps)).bindSame fun _ =>
      (statements_gives hs ts).bindSame fun _ => .refl _

end

theorem code_gives (hm : m.Extends m') (depth base : Nat) (t : Tree) :
    Gives (Hoist.code m depth base t) (Hoist.code m' depth base t) := by
  induction depth generalizing base t with
  | zero => exact .refl _
  | succ depth ih =>
    have hs : StringsGive m m' (Hoist.code m depth) (Hoist.code m' depth) :=
      fun base => string_gives hm (ih base)
    unfold Hoist.code
    split
    · exact (parts_gives hs base _).bindSame fun _ => .refl _
    · exact (tree_gives hs base .value t).bindSame fun _ => .refl _

/-- A tree that is made plain without the feature is made plain in the same way with it. -/
theorem story_extends (hm : m.Extends m') {t v : Tree} (h : story m t = .ok v) : story m' t = .ok v := by
  cases t with
  | token t => exact h
  | node rule line ps =>
    simp only [story] at h ⊢
    split at h
    · cases h
    · rename_i left issued hs
      have hgives := statements_gives
        (fun base => string_gives hm (code_gives hm (depthOf (.node rule line ps)) base)) ps
      obtain ⟨_, _, hs', rfl, rfl⟩ := hgives _ _ _ _ rfl hs
      rw [hs']
      exact h

end Hoist

/-! ## Stories -/

/-- The options with strings between apostrophes allowed or not. -/
def Options.quoting (o : Options) (allowed : Bool) : Options :=
  { o with features := o.features.quoting allowed }

namespace Story

variable {s : Story} {o : Options} {f f' : Features} {tokens : List Token} {t : Tree}

theorem features_extends (h : s.features (o.quoting false) = .ok f) :
    ∃ f', s.features (o.quoting true) = .ok f' ∧ f.Extends f' := by
  unfold features at h ⊢
  have hlines := Features.extends_applyLines o.features.extends_quoting
    (Text.lines (s.source.toList.dropWhile (· = Text.byteOrderMark)))
  split at h
  · rename_i g hg
    obtain rfl := Except.ok.inj h
    obtain ⟨f', hf', hext⟩ := hlines.exists_ok hg
    exact ⟨f', by rw [show (o.quoting true).features.applyHeader _ = .ok f' from hf'], hext⟩
  · cases h

theorem hoistedTreeOf_extends {m m' : ScanMode} (hm : m.Extends m') (h : hoistedTreeOf m tokens = .ok t) :
    hoistedTreeOf m' tokens = .ok t := by
  unfold hoistedTreeOf treeOf at h ⊢
  rw [hm.grammar]
  cases ht : Tree.ofTokens m.grammar tokens with
  | error fault =>
    rw [ht] at h
    cases h
  | ok read =>
    rw [ht] at h
    exact Hoist.story_extends hm h

theorem check_extends (h : f.Extends f') (reports : Reports) (t : Tree) :
    s.check (o.quoting true) f' reports t = s.check (o.quoting false) f reports t := by
  unfold check
  rw [h.eq_quoting, Check.story_quoting]
  rfl

/-- A story that is not compiled does not succeed. -/
theorem not_isSuccess (r : Reports) (t : Option Tree) : (r.outcome t none).isSuccess = false := by
  simp [Outcome.isSuccess, Reports.outcome]

/-- A story that compiles without strings between apostrophes compiles with them, and everything
about it is the same: its script, its tree and all that is reported. -/
theorem compile_quoting (s : Story) (o : Options) (h : (s.compile (o.quoting false)).isSuccess = true) :
    s.compile (o.quoting true) = s.compile (o.quoting false) := by
  unfold compile at h ⊢
  cases hf : s.features (o.quoting false) with
  | error d => simp [hf, not_isSuccess] at h
  | ok f =>
    obtain ⟨f', hf', hext⟩ := features_extends hf
    have hm : (modeOf (o.quoting false) f).Extends (modeOf (o.quoting true) f') := ⟨rfl, hext.singleQuotes⟩
    simp only [hf, hf'] at h ⊢
    cases hs : (s.scanned (modeOf (o.quoting false) f)).tokens with
    | error fault => simp [hs, not_isSuccess] at h
    | ok tokens =>
      have hscan : s.scanned (modeOf (o.quoting true) f') = s.scanned (modeOf (o.quoting false) f) :=
        scan_extends hm hs
      simp only [hscan, hs] at h ⊢
      cases ht : hoistedTreeOf (modeOf (o.quoting false) f) tokens with
      | error fault => simp [ht, not_isSuccess] at h
      | ok t =>
        simp only [hoistedTreeOf_extends hm ht]
        exact check_extends hext _ t

/-- The code of a string with a string of its own, and an apostrophe in that. -/
theorem compile_quoting_code :
    ((unnamed "d = \x7b\"it's\": 1\x7d\ns = \"\x7bd[\"it's\"]\x7d\"\n").compile
      (Options.standard.quoting false)).isSuccess = true ∧
    (unnamed "d = \x7b\"it's\": 1\x7d\ns = \"\x7bd[\"it's\"]\x7d\"\n").compile (Options.standard.quoting true) =
      (unnamed "d = \x7b\"it's\": 1\x7d\ns = \"\x7bd[\"it's\"]\x7d\"\n").compile
        (Options.standard.quoting false) := by
  have h : ((unnamed "d = \x7b\"it's\": 1\x7d\ns = \"\x7bd[\"it's\"]\x7d\"\n").compile
      (Options.standard.quoting false)).isSuccess = true := by
    decide +kernel
  exact ⟨h, compile_quoting _ _ h⟩

end Story

end StoryLang
