/-
Values and statements that are checked with the same in sight.

A row of parts is followed in several ways, and each of them checks some of its
trees and keeps the others. So what two checks of a row do is shown from what
two checks of its trees do, and that by induction on the tree.

A block is checked with the scopes it starts in on top, and what is below stays
out of sight or looks the same. The body of a function is checked with what the
function sees; so two checks of it need only agree on that.
-/
import StoryLang.Proofs.Check.Contract
import StoryLang.Proofs.Check.Sight.Basic
import StoryLang.Proofs.Tree.Names

/-! ## Values -/

namespace StoryLang.Check

variable {k : Nat} {below below' : List Scope} {e e' : Env} {rule : Rule} {line : Option Coord}
  {ps : List Tree}

/-- Two checks of a row of parts do the same, whichever way it is followed. -/
structure RowsMirror (k : Nat) (below below' : List Scope) (e e' : Env) (ps : List Tree) : Prop where
  firsts : ∀ n, Mirrors k below below' (firsts e n ps) (firsts e' n ps)
  entries : Mirrors k below below' (entries e ps) (entries e' ps)
  fragments : ∀ ty, Mirrors k below below' (fragments e ty ps) (fragments e' ty ps)
  arguments : Mirrors k below below' (argumentsOf e ps) (argumentsOf e' ps)
  supplied : ∀ seen, Mirrors k below below' (suppliedBy e seen ps) (suppliedBy e' seen ps)
  links : ∀ ty, Mirrors k below below' (links e ty ps) (links e' ty ps)
  mutation : Mirrors k below below' (mutation e ps) (mutation e' ps)
  callAsMutation : Mirrors k below below' (callAsMutation e ps) (callAsMutation e' ps)

/-- Two checks of a value do the same. -/
structure ValueMirrors (k : Nat) (below below' : List Scope) (e e' : Env) (t : Tree) : Prop where
  value : Mirrors k below below' (value e t) (value e' t)
  rows : RowsMirror k below below' e e' t.parts

theorem RowsMirror.nil : RowsMirror k below below' e e' [] where
  firsts n := by cases n <;> exact mirrors_pure
  entries := mirrors_pure
  fragments _ := mirrors_pure
  arguments := mirrors_pure
  supplied _ := mirrors_pure
  links _ := mirrors_pure
  mutation := mirrors_pure
  callAsMutation := mirrors_pure

theorem RowsMirror.token {u : Token} (h : RowsMirror k below below' e e' ps) :
    RowsMirror k below below' e e' (.token u :: ps) where
  firsts n := by
    unfold Check.firsts
    exact (h.firsts n).bind fun _ => mirrors_pure
  entries := by
    unfold Check.entries
    exact h.entries.bind fun _ => mirrors_pure
  fragments ty := by
    unfold Check.fragments
    exact (h.fragments ty).bind fun _ => mirrors_pure
  arguments := h.arguments
  supplied seen := by
    unfold suppliedBy
    exact (h.supplied seen).bind fun _ => mirrors_pure
  links ty := by
    unfold Check.links
    exact (h.links ty).bind fun _ => mirrors_pure
  mutation := by
    unfold Check.mutation
    exact h.mutation.bind fun _ => mirrors_pure
  callAsMutation := by
    unfold Check.callAsMutation
    exact (h.links _).bind fun _ => mirrors_pure

theorem RowsMirror.node {inner : List Tree}
    (ht : ValueMirrors k below below' e e' (.node rule line inner))
    (h : RowsMirror k below below' e e' ps) :
    RowsMirror k below below' e e' (.node rule line inner :: ps) where
  firsts n := by
    cases n with
    | zero =>
      unfold Check.firsts
      exact mirrors_pure
    | succ n =>
      unfold Check.firsts
      exact ht.value.bind fun _ => (h.firsts n).bind fun _ => mirrors_pure
  entries := by
    unfold Check.entries
    exact (ht.rows.firsts 2).bind fun _ => h.entries.bind fun _ => mirrors_pure
  fragments ty := by
    unfold Check.fragments
    split
    · have rest : ∀ ty, Mirrors k below below'
          (Check.fragments e ty ps >>= fun out => pure (.node rule line inner :: out.1, out.2))
          (Check.fragments e' ty ps >>= fun out => pure (.node rule line inner :: out.1, out.2)) :=
        fun ty => (h.fragments ty).bind fun _ => mirrors_pure
      split
      · exact rest ty
      · exact (mirrors_fieldType _ _).bind rest
    · refine (ht.rows.firsts 1).bind fun _ => (mirrors_indexType _ _ _).bind fun ty => ?_
      exact (h.fragments ty).bind fun _ => mirrors_pure
  arguments := by
    by_cases hr : rule = .arguments
    · subst hr
      unfold argumentsOf
      exact (ht.rows.supplied []).bind fun _ => mirrors_pure
    · rw [argumentsOf_other hr, argumentsOf_other hr]
      exact h.arguments
  supplied seen := by
    unfold suppliedBy
    split
    · exact (h.supplied seen).bind fun _ => mirrors_pure
    · rename_i name _
      have rest : Mirrors k below below' (Check.firsts e 1 inner >>= fun out =>
          suppliedBy e (name.literal :: seen) ps >>= fun others =>
          pure (Tree.node rule line out.1 :: others.1,
            (⟨name.literal, out.2.getD 0 .any, name.position⟩ : Supplied) :: others.2))
          (Check.firsts e' 1 inner >>= fun out =>
          suppliedBy e' (name.literal :: seen) ps >>= fun others =>
          pure (Tree.node rule line out.1 :: others.1,
            (⟨name.literal, out.2.getD 0 .any, name.position⟩ : Supplied) :: others.2)) :=
        (ht.rows.firsts 1).bind fun _ => (h.supplied _).bind fun _ => mirrors_pure
      exact .ite (.reported fun _ => rest) rest
  links ty := by
    by_cases hr : rule = .mutationFragment
    · subst hr
      unfold Check.links
      refine ht.rows.arguments.bind fun _ => (mirrors_mutationCall _ _ _).bind fun ty => ?_
      exact (h.links ty).bind fun _ => mirrors_pure
    · rw [links_other hr, links_other hr]
      exact (h.links ty).bind fun _ => mirrors_pure
  mutation := by
    unfold Check.mutation
    exact ht.value.bind fun out => (h.links out.2).bind fun _ => mirrors_pure
  callAsMutation := by
    unfold Check.callAsMutation
    refine ht.value.bind fun _ => h.arguments.bind fun _ => ?_
    refine (mirrors_mutationCall _ _ _).bind fun ty => ?_
    exact (h.links ty).bind fun _ => mirrors_pure

theorem RowsMirror.of (h : ∀ q ∈ ps, ValueMirrors k below below' e e' q) :
    RowsMirror k below below' e e' ps :=
  Tree.byRow h .nil .token .node

theorem RowsMirror.path (hs : e.Sees e' below below') (h : RowsMirror k below below' e e' ps) :
    Mirrors k below below' (value e (.node .path line ps)) (value e' (.node .path line ps)) := by
  unfold value
  split
  · exact mirrors_pure
  · refine (hs.lookup _).bind fun found => ?_
    split
    · exact .reported fun _ => mirrors_pure
    · exact (h.fragments _).bind fun _ => mirrors_pure

theorem RowsMirror.call (hs : e.Sees e' below below') (h : RowsMirror k below below' e e' ps) :
    Mirrors k below below' (value e (.node .serviceCall line ps))
      (value e' (.node .serviceCall line ps)) := by
  have kept : Mirrors k below below'
      (argumentsOf e ps >>= fun out =>
        pure (Tree.node .serviceCall line (Tree.putFirst .arguments out.1 ps), Ty.any))
      (argumentsOf e' ps >>= fun out =>
        pure (Tree.node .serviceCall line (Tree.putFirst .arguments out.1 ps), Ty.any)) :=
    h.arguments.bind fun _ => mirrors_pure
  unfold value
  split
  · exact mirrors_pure
  · split
    · exact mirrors_pure
    · refine (hs.lookup _).bind fun found => ?_
      split
      · refine .ite (.reported fun _ => kept) ?_
        exact h.arguments.bind fun _ => (hs.commandCall _ _ _ _).bind fun _ => mirrors_pure
      · split
        · exact kept
        · exact h.callAsMutation.bind fun _ => mirrors_pure

/-- Two checks of a value that see the same do the same. -/
theorem Env.Sees.values (hs : e.Sees e' below below') (t : Tree) :
    ValueMirrors k below below' e e' t := by
  induction t using Tree.byParts with
  | token u => exact ⟨mirrors_pure, .nil⟩
  | node rule line ps ih =>
    have h : RowsMirror k below below' e e' ps := .of ih
    refine ⟨?_, h⟩
    cases rule with
    | list =>
      unfold Check.value
      exact (h.firsts _).bind fun _ => mirrors_pure
    | map =>
      unfold Check.value
      exact h.entries.bind fun _ => mirrors_pure
    | path => exact h.path hs
    | binaryExpression =>
      unfold Check.value
      exact (h.firsts 2).bind fun _ => (mirrors_betweenType _ _).bind fun _ => mirrors_pure
    | unaryExpression =>
      unfold Check.value
      exact (h.firsts 1).bind fun _ => (mirrors_beforeType _ _).bind fun _ => mirrors_pure
    | cast =>
      unfold Check.value
      exact (h.firsts 1).bind fun _ => (mirrors_castType _ _).bind fun _ => mirrors_pure
    | serviceCall => exact h.call hs
    | mutation =>
      unfold Check.value
      exact h.mutation.bind fun _ => mirrors_pure
    | functionCall =>
      unfold Check.value
      exact h.arguments.bind fun _ => (hs.functionCall _ _).bind fun _ => mirrors_pure
    | expressionStatement =>
      unfold Check.value
      exact (h.firsts 1).bind fun _ => mirrors_pure
    | _ => exact mirrors_pure

theorem Env.Sees.value (hs : e.Sees e' below below') (t : Tree) :
    Mirrors k below below' (value e t) (value e' t) :=
  (hs.values t).value

theorem Env.Sees.arguments (hs : e.Sees e' below below') (ps : List Tree) :
    Mirrors k below below' (argumentsOf e ps) (argumentsOf e' ps) :=
  (RowsMirror.of fun t _ => hs.values t).arguments

end StoryLang.Check

namespace StoryLang.Check

variable {k : Nat} {below below' : List Scope} {e e' : Env} {rule : Rule} {line : Option Coord}
  {t : Tree} {ps ts : List Tree}

/-! ## What belongs to a statement itself -/

theorem Env.Sees.nodeValue (hs : e.Sees e' below below') (i : Nat) (ps : List Tree) :
    Mirrors k below below' (nodeValue e i ps) (nodeValue e' i ps) := by
  unfold Check.nodeValue
  split
  · exact mirrors_pure
  · exact (hs.value _).bind fun _ => mirrors_pure

theorem Env.Sees.condition (hs : e.Sees e' below below') (t : Tree) :
    Mirrors k below below' (condition e t) (condition e' t) := by
  unfold Check.condition
  rw [hs.features]
  exact (hs.value t).bind fun _ => .ite (.reported fun _ => mirrors_pure) mirrors_pure

theorem mirrors_assignable (target source : Ty) (place : Position) :
    Mirrors k below below' (assignable target source place) (assignable target source place) :=
  .ite (mirrors_report _ _ _) mirrors_pure

theorem Env.Sees.assignment (hs : e.Sees e' below below') (t : Tree) (ps : List Tree) :
    Mirrors (k + 1) below below' (assignment e t ps) (assignment e' t ps) := by
  refine (hs.nodeValue 1 ps).bind fun given => ?_
  dsimp only
  split
  · exact mirrors_pure
  · split
    · exact mirrors_pure
    · split
      · exact (hs.value _).bind fun _ => (mirrors_assignable _ _ _).bind fun _ => mirrors_pure
      · refine (hs.lookup _).bind fun found => ?_
        cases found with
        | some binding => exact (mirrors_assignable _ _ _).bind fun _ => mirrors_pure
        | none => exact (mirrors_declare _ _ _ _).bind fun _ => mirrors_pure

theorem mirrors_iteratedTypes (source : Ty) (names : Nat) (place : Option Position) :
    Mirrors k below below' (iteratedTypes source names place) (iteratedTypes source names place) := by
  have rest : ∀ tys : List Ty, Mirrors k below below'
      (if 2 < names then report .tooManyNames [source.text, "2"] place >>= fun _ => pure tys
        else pure tys)
      (if 2 < names then report .tooManyNames [source.text, "2"] place >>= fun _ => pure tys
        else pure tys) :=
    fun tys => .ite (.reported fun _ => mirrors_pure) mirrors_pure
  unfold iteratedTypes
  dsimp only
  split
  · exact mirrors_pure.bind rest
  · exact .reported fun _ => mirrors_pure.bind rest

theorem Env.Sees.listening (hs : e.Sees e' below below') (root : Token) (event : Option Token)
    (supplied : List Supplied) :
    Mirrors k below below' (listening e root event supplied) (listening e' root event supplied) := by
  unfold Check.listening
  rw [hs.registry]
  refine (hs.lookup _).bind fun found => ?_
  split
  · split
    · exact hs.eventCall _ _ _ _
    · exact mirrors_pure
  · exact mirrors_pure
  · exact .reported fun _ => mirrors_pure
  · refine (mirrors_useService _).bind fun _ => ?_
    split
    · exact (mirrors_service? _ _).bind fun known =>
        .ite (.reported fun _ => mirrors_pure) mirrors_pure
    · exact mirrors_pure

theorem Env.Sees.returned (hs : e.Sees e' below below') (ps : List Tree) :
    Mirrors k below below' (returned e ps) (returned e' ps) := by
  unfold Check.returned
  refine (hs.nodeValue 0 ps).bind fun ⟨given, ty⟩ => ?_
  cases given with
  | none => exact mirrors_pure
  | some t =>
    have hbody := hs.body
    cases he : e.body <;> cases he' : e'.body <;>
      simp only [he, he', Option.map_none, Option.map_some, Option.some.injEq, Prod.mk.injEq,
        reduceCtorEq] at hbody
    · exact mirrors_pure
    · dsimp only
      rw [hbody.1, hbody.2]
      exact .ite (.reported fun _ => mirrors_pure) mirrors_pure

theorem mirrors_enter (flow : Flow) (t : Tree) :
    Mirrors k below below' (flow.enter t) (flow.enter t) := by
  cases flow with
  | stopped keyword => exact .reported fun _ => mirrors_pure
  | «open» | reported => exact mirrors_pure

/-! ## Blocks -/

/-- What two checks of a list of statements do that see the same, in whichever function. -/
def ListMirrors (below below' : List Scope) (ts : List Tree) : Prop :=
  ∀ k e e', Env.Sees e e' below below' → ∀ flow,
    Mirrors (k + 1) below below' (statements e flow ts) (statements e' flow ts)

/-- The same for a statement. -/
def StatementMirrors (below below' : List Scope) (t : Tree) : Prop :=
  ∀ k e e', Env.Sees e e' below below' →
    Mirrors (k + 1) below below' (statement e t) (statement e' t)

/-- The same for the blocks in a row of parts. -/
abbrev BlocksMirror (below below' : List Scope) (ps : List Tree) : Prop :=
  ∀ q ∈ ps, ListMirrors below below' q.parts

theorem ListMirrors.of (h : ∀ t ∈ ts, StatementMirrors below below' t) :
    ListMirrors below below' ts := by
  induction ts with
  | nil => exact fun _ _ _ _ _ => mirrors_pure
  | cons t ts ih =>
    intro k e e' hs flow
    simp only [List.forall_mem_cons] at h
    cases t with
    | token u =>
      unfold statements
      exact (ih h.2 k e e' hs flow).bind fun _ => mirrors_pure
    | node r l inner =>
      unfold statements
      refine (mirrors_enter flow _).bind fun flow => (h.1 k e e' hs).bind fun made => ?_
      exact (ih h.2 k e e' hs (flow.after made)).bind fun _ => mirrors_pure

namespace BlocksMirror

theorem bodyOf (h : BlocksMirror below below' ps) (hs : e.Sees e' below below') :
    Mirrors (k + 1) below below' (bodyOf e ps) (bodyOf e' ps) := by
  induction ps with
  | nil => exact mirrors_pure
  | cons q ps ih =>
    simp only [BlocksMirror, List.forall_mem_cons] at h
    cases q with
    | token u => exact ih h.2
    | node r l inner =>
      by_cases hr : r = .block
      · subst hr
        unfold Check.bodyOf
        exact (h.1 k e e' hs .open).bind fun _ => mirrors_pure
      · rw [bodyOf_other hr, bodyOf_other hr]
        exact ih h.2

theorem blockOf (h : BlocksMirror below below' ps) (hs : e.Sees e' below below') :
    Mirrors k below below' (blockOf e ps) (blockOf e' ps) := by
  induction ps with
  | nil => exact mirrors_pure
  | cons q ps ih =>
    simp only [BlocksMirror, List.forall_mem_cons] at h
    cases q with
    | token u => exact ih h.2
    | node r l inner =>
      by_cases hr : r = .block
      · subst hr
        unfold Check.blockOf
        exact (mirrors_inOwnScope (h.1 k e e' hs .open)).bind fun _ => mirrors_pure
      · rw [blockOf_other hr, blockOf_other hr]
        exact ih h.2

/-- What is declared for a block, and the block, in one scope. -/
theorem inScope {β : Type} {x x' : Check Unit} {f f' : Option Tree → Check β}
    (h : BlocksMirror below below' ps) (hs : e.Sees e' below below')
    (hx : Mirrors (k + 1) below below' x x') (hf : ∀ body, Mirrors k below below' (f body) (f' body)) :
    Mirrors k below below'
      (push >>= fun _ => x >>= fun _ => Check.bodyOf e ps >>= fun body => pop >>= fun _ => f body)
      (push >>= fun _ => x' >>= fun _ => Check.bodyOf e' ps >>= fun body => pop >>= fun _ => f' body) :=
  reflects_push.bind fun _ => hx.bind fun _ => (h.bodyOf hs).bind fun body => reflects_pop.bind fun _ => hf body

end BlocksMirror

theorem BlocksMirror.branch (h : BlocksMirror below below' ps) (hs : e.Sees e' below below') :
    Mirrors k below below' (branch e ps) (branch e' ps) := by
  induction ps with
  | nil => exact mirrors_pure
  | cons q ps ih =>
    simp only [BlocksMirror, List.forall_mem_cons] at h
    have ih := ih h.2
    cases q with
    | token u =>
      unfold Check.branch
      exact ih.bind fun _ => mirrors_pure
    | node r l inner =>
      by_cases hr : r = .block
      · subst hr
        unfold Check.branch
        exact (mirrors_inOwnScope (h.1 k e e' hs .open)).bind fun _ => ih.bind fun _ => mirrors_pure
      · rw [branch_other hr, branch_other hr]
        exact (hs.condition _).bind fun _ => ih.bind fun _ => mirrors_pure

theorem BlocksMirror.branches (h : BlocksMirror below below' ps)
    (hb : ∀ q ∈ ps, BlocksMirror below below' q.parts) (hs : e.Sees e' below below') :
    Mirrors k below below' (branches e ps) (branches e' ps) := by
  induction ps with
  | nil => exact mirrors_pure
  | cons q ps ih =>
    simp only [BlocksMirror, List.forall_mem_cons] at h hb
    have ih := ih h.2 hb.2
    cases q with
    | token u =>
      unfold Check.branches
      exact ih.bind fun _ => mirrors_pure
    | node r l inner =>
      by_cases hr : r = .block
      · subst hr
        unfold Check.branches
        exact (mirrors_inOwnScope (h.1 k e e' hs .open)).bind fun _ => ih.bind fun _ => mirrors_pure
      by_cases he : r = .elifBlock
      · subst he
        unfold Check.branches
        exact (BlocksMirror.branch hb.1 hs).bind fun _ => ih.bind fun _ => mirrors_pure
      by_cases hl : r = .elseBlock
      · subst hl
        unfold Check.branches
        exact (BlocksMirror.blockOf hb.1 hs).bind fun _ => ih.bind fun _ => mirrors_pure
      rw [branches_other hr he hl, branches_other hr he hl]
      exact (hs.condition _).bind fun _ => ih.bind fun _ => mirrors_pure

theorem BlocksMirror.handlers (h : BlocksMirror below below' ps)
    (hb : ∀ q ∈ ps, BlocksMirror below below' q.parts) (hs : e.Sees e' below below') :
    Mirrors k below below' (handlers e ps) (handlers e' ps) := by
  induction ps with
  | nil => exact mirrors_pure
  | cons q ps ih =>
    simp only [BlocksMirror, List.forall_mem_cons] at h hb
    have ih := ih h.2 hb.2
    cases q with
    | token u =>
      unfold Check.handlers
      exact ih.bind fun _ => mirrors_pure
    | node r l inner =>
      by_cases hr : r = .block
      · subst hr
        unfold Check.handlers
        exact (mirrors_inOwnScope (h.1 k e e' hs .open)).bind fun _ => ih.bind fun _ => mirrors_pure
      by_cases hc : r = .catchBlock
      · subst hc
        unfold Check.handlers
        exact BlocksMirror.inScope hb.1 hs (mirrors_declareOutput _ _) fun _ =>
          ih.bind fun _ => mirrors_pure
      by_cases hf : r = .finallyBlock
      · subst hf
        unfold Check.handlers
        exact (BlocksMirror.blockOf hb.1 hs).bind fun _ => ih.bind fun _ => mirrors_pure
      rw [handlers_other hr hc hf, handlers_other hr hc hf]
      exact ih.bind fun _ => mirrors_pure

/-! ## Statements -/

theorem BlocksMirror.call (h : BlocksMirror below below' ps) (hs : e.Sees e' below below')
    (hc : rule = .serviceCall ∨ rule = .mutation) :
    Mirrors (k + 1) below below' (statement e (.node rule line ps))
      (statement e' (.node rule line ps)) := by
  rw [statement_call hc, statement_call hc]
  refine (hs.value _).bind fun out => (mirrors_declareOutput _ _).bind fun _ => ?_
  refine (h.blockOf hs).bind fun body => ?_
  split <;> exact mirrors_pure

theorem BlocksMirror.whileBlock (h : BlocksMirror below below' ps) (hs : e.Sees e' below below') :
    Mirrors k below below' (statement e (.node .whileBlock line ps))
      (statement e' (.node .whileBlock line ps)) := by
  have rest : ∀ first, Mirrors k below below'
      (Check.blockOf e ps >>= fun body => pure (Tree.node .whileBlock line
        (Tree.putFirst .block body (Tree.putNode first 0 ps))))
      (Check.blockOf e' ps >>= fun body => pure (Tree.node .whileBlock line
        (Tree.putFirst .block body (Tree.putNode first 0 ps)))) :=
    fun first => (h.blockOf hs).bind fun _ => mirrors_pure
  unfold statement
  dsimp only
  split
  · simp only [map_eq_pure_bind, bind_assoc, pure_bind]
    exact (hs.condition _).bind fun first => rest (some first)
  · exact rest none

theorem BlocksMirror.foreachBlock (h : BlocksMirror below below' ps) (hs : e.Sees e' below below') :
    Mirrors k below below' (statement e (.node .foreachBlock line ps))
      (statement e' (.node .foreachBlock line ps)) := by
  unfold statement
  refine (hs.nodeValue 0 ps).bind fun _ => (mirrors_iteratedTypes _ _ _).bind fun tys => ?_
  exact h.inScope hs (mirrors_declareAll _ _ _) fun _ => mirrors_pure

theorem BlocksMirror.whenBlock (h : BlocksMirror below below' ps) (hs : e.Sees e' below below') :
    Mirrors k below below' (statement e (.node .whenBlock line ps))
      (statement e' (.node .whenBlock line ps)) := by
  unfold statement
  refine (hs.arguments ps).bind fun given => ?_
  dsimp only
  split
  · exact mirrors_pure
  · refine (hs.listening _ _ _).bind fun ty => ?_
    exact h.inScope hs (mirrors_declareOutput _ _) fun _ => mirrors_pure

/-- The body of a function starts in a scope of its own, and so it does wherever the
function stands. -/
theorem BlocksMirror.functionBlock (h : BlocksMirror below below' ps) (hs : e.Sees e' below below') :
    Mirrors k below below' (statement e (.node .functionBlock line ps))
      (statement e' (.node .functionBlock line ps)) := by
  unfold statement
  split
  · exact mirrors_pure
  · rename_i name _
    have hin := Env.Sees.inBody hs.features hs.registry hs.functions (Nat.le_add_left 1 k) hs.globals
      name.literal (spelledOrAny (returnTypes ps))
    refine reflects_push.bind fun _ => .topNumber ?_
    refine (mirrors_declareAll _ _ _).bind fun _ => (h.bodyOf hin).bind fun _ => ?_
    exact reflects_pop.bind fun _ => mirrors_pure

/-- What two checks do with a tree as a statement, and with the branch of one. -/
structure TreeMirrors (below below' : List Scope) (t : Tree) : Prop where
  statement : StatementMirrors below below' t
  list : ListMirrors below below' t.parts
  blocks : BlocksMirror below below' t.parts

theorem treeMirrors (below below' : List Scope) (t : Tree) : TreeMirrors below below' t := by
  induction t using Tree.byParts with
  | token u => exact ⟨fun _ _ _ _ => mirrors_pure, .of nofun, nofun⟩
  | node rule line ps ih =>
    have blocks : BlocksMirror below below' ps := fun q hq => (ih q hq).list
    have branches : ∀ q ∈ ps, BlocksMirror below below' q.parts := fun q hq => (ih q hq).blocks
    refine ⟨fun k e e' hs => ?_, .of fun q hq => (ih q hq).statement, blocks⟩
    cases rule with
    | assignment =>
      unfold Check.statement
      exact (hs.assignment _ ps).bind fun _ => mirrors_pure
    | serviceCall => exact blocks.call hs (.inl rfl)
    | mutation => exact blocks.call hs (.inr rfl)
    | functionCall | expressionStatement =>
      unfold Check.statement
      exact (hs.value _).bind fun _ => mirrors_pure
    | ifBlock =>
      unfold Check.statement
      exact (blocks.branches branches hs).bind fun _ => mirrors_pure
    | tryBlock =>
      unfold Check.statement
      exact (blocks.handlers branches hs).bind fun _ => mirrors_pure
    | whileBlock => exact blocks.whileBlock hs
    | foreachBlock => exact blocks.foreachBlock hs
    | functionBlock => exact blocks.functionBlock hs
    | whenBlock => exact blocks.whenBlock hs
    | returnStatement =>
      unfold Check.statement
      exact (hs.returned ps).bind fun _ => mirrors_pure
    | throwStatement =>
      unfold Check.statement
      exact (hs.nodeValue 0 ps).bind fun _ => mirrors_pure
    | importStatement =>
      unfold Check.statement
      split
      · exact mirrors_pure
      · exact (mirrors_declare _ _ _ _).bind fun _ => mirrors_pure
    | _ => exact mirrors_pure

/-- Two checks of some statements that see the same do the same. -/
theorem Env.Sees.statements (hs : e.Sees e' below below') (flow : Flow) (ts : List Tree) :
    Mirrors (k + 1) below below' (statements e flow ts) (statements e' flow ts) :=
  ListMirrors.of (fun t _ => (treeMirrors below below' t).statement) k e e' hs flow

/-! ## Stories -/

theorem mirrors_signature (functions : NameMap Signature) (t : Tree) :
    Mirrors k below below' (signature functions t) (signature functions t) := by
  unfold signature
  split
  · exact mirrors_pure
  · refine (mirrors_mapM fun p => (mirrors_writtenType _).bind fun _ => mirrors_pure).bind
      fun parameters => ?_
    dsimp only
    split
    · refine (mirrors_writtenType _).bind fun returns => ?_
      split
      · exact .reported fun _ => mirrors_pure
      · exact mirrors_pure
    · refine mirrors_pure.bind fun returns => ?_
      split
      · exact .reported fun _ => mirrors_pure
      · exact mirrors_pure

theorem mirrors_signatures (t : Tree) :
    Mirrors k below below' (signatures t) (signatures t) :=
  mirrors_foldlM (fun functions t => mirrors_signature functions t) _

theorem reflects_tree (features : Features) (registry : Option Registry) (t : Tree) :
    Reflects k (k + 1) below below (tree features registry t) (tree features registry t) := by
  unfold tree
  refine (mirrors_signatures t).bind fun functions => reflects_push.bind fun _ => ?_
  cases t with
  | token u => exact mirrors_pure
  | node rule line ps => exact ((Env.Sees.refl _ below).statements .open ps).bind fun _ => mirrors_pure

/-- Nothing but the registry stops the check of a story. -/
theorem story_fault {features : Features} {registry : Option Registry} {root : Scope} {t : Tree}
    {fault : Fault} (h : story features registry root t = .error fault) :
    fault = .internal .registryFailed := by
  unfold story at h
  cases ht : tree features registry t { scopes := .ofRoot root, reports := [], services := .empty } with
  | error e =>
    obtain rfl : e = fault := by simpa [ht, Bind.bind, Except.bind] using h
    have htree : Reflects 0 1 [] [] (tree features registry t) (tree features registry t) :=
      reflects_tree features registry t
    exact htree.fault (s := { scopes := .ofRoot root, reports := [], services := .empty }) ht
  | ok out => simp [ht, Bind.bind, Except.bind, Pure.pure, Except.pure] at h

end StoryLang.Check
