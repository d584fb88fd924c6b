/-
What can stop the making of a script.

Nothing that a script is made of reads the text of the story again. So whatever
shape a tree has, if no script can be made of it then that is a defect of the
tree, and no fault of the story.
-/
import StoryLang.Proofs.Tree.Names
import StoryLang.Script.OfTree

namespace StoryLang

/-- The only faults are defects. -/
def OnlyDefects {α : Type} (x : Except Fault α) : Prop :=
  match x with
  | .ok _ => True
  | .error fault => fault.isInternal = true

namespace OnlyDefects

variable {α β : Type} {x : Except Fault α}

theorem pure {a : α} : OnlyDefects (Pure.pure a : Except Fault α) := trivial

theorem defect {d : Defect} : OnlyDefects (.error (.internal d) : Except Fault α) := rfl

theorem bind {f : α → Except Fault β} (h : OnlyDefects x) (hf : ∀ a, OnlyDefects (f a)) :
    OnlyDefects (x >>= f) := by
  cases x with
  | ok a => exact hf a
  | error fault => exact h

theorem mapM {f : α → Except Fault β} (h : ∀ a, OnlyDefects (f a)) (as : List α) :
    OnlyDefects (as.mapM f) := by
  induction as with
  | nil => exact pure
  | cons a as ih =>
    rw [List.mapM_cons]
    exact (h a).bind fun _ => ih.bind fun _ => pure

end OnlyDefects

/-! ## Values -/

namespace Value

variable {line : Option Coord} {rule : Rule} {ps : List Tree}

theorem orDefect_onlyDefects {α : Type} (d : Defect) (x : Option α) : OnlyDefects (orDefect d x) := by
  cases x with
  | none => exact .defect
  | some a => exact .pure

theorem ofNumber_onlyDefects (t : Token) : OnlyDefects (ofNumber t) := by
  unfold ofNumber
  split
  · cases Text.signed64? t.literal.toList with
    | none => exact .defect
    | some n => exact .pure
  · cases Binary64.literal? t.literal.toList with
    | none => exact .defect
    | some x => exact .pure

/-- Only defects stop a row of parts, whichever way its values are made. -/
structure RowDefects (ps : List Tree) : Prop where
  node : ∀ d, OnlyDefects (ofNode d ps)
  first : ∀ n, OnlyDefects (ofFirst n ps)
  entries : OnlyDefects (ofEntries ps)
  path : OnlyDefects (ofPathParts ps)

theorem RowDefects.of (h : ∀ p ∈ ps, OnlyDefects (ofTree p) ∧ RowDefects p.parts) : RowDefects ps := by
  induction ps with
  | nil => exact ⟨fun _ => .defect, fun n => by cases n <;> exact .pure, .pure, .pure⟩
  | cons p ps ih =>
    obtain ⟨hp, hps⟩ := List.forall_mem_cons.1 h
    have ih := ih hps
    cases p with
    | token t =>
      refine ⟨ih.node, fun n => ?_, ih.entries, ?_⟩
      · unfold ofFirst
        exact ih.first n
      · unfold ofPathParts
        exact ih.path.bind fun _ => .pure
    | node r l inner =>
      refine ⟨fun d => ?_, fun n => ?_, ?_, ?_⟩
      · unfold ofNode
        exact hp.1
      · cases n with
        | zero => exact .pure
        | succ n =>
          unfold ofFirst
          exact hp.1.bind fun _ => (ih.first n).bind fun _ => .pure
      · unfold ofEntries
        split
        · exact .defect
        · refine (hp.2.first 2).bind fun both => ?_
          split
          · exact ih.entries.bind fun _ => .pure
          · exact .defect
      · unfold ofPathParts
        split
        · exact OnlyDefects.bind .pure fun _ => ih.path.bind fun _ => .pure
        · exact (hp.2.node _).bind fun _ => ih.path.bind fun _ => .pure

/-- Only defects stop a tree from having a value. -/
theorem ofTree_onlyDefects (t : Tree) : OnlyDefects (ofTree t) ∧ RowDefects t.parts := by
  induction t using Tree.byParts with
  | token u => exact ⟨.defect, .of nofun⟩
  | node rule line ps ih =>
    have row : RowDefects ps := .of ih
    refine ⟨?_, row⟩
    cases rule with
    | number =>
      unfold ofTree
      exact (orDefect_onlyDefects _ _).bind ofNumber_onlyDefects
    | string | boolean =>
      unfold ofTree
      exact (orDefect_onlyDefects _ _).bind fun _ => .pure
    | null => exact .pure
    | list =>
      unfold ofTree
      exact (row.first _).bind fun _ => .pure
    | map =>
      unfold ofTree
      exact row.entries.bind fun _ => .pure
    | path =>
      unfold ofTree
      exact row.path.bind fun _ => .pure
    | binaryExpression =>
      unfold ofTree
      refine (orDefect_onlyDefects _ _).bind fun _ => (row.first _).bind fun _ => ?_
      exact (orDefect_onlyDefects _ _).bind fun _ => .pure
    | unaryExpression =>
      unfold ofTree
      refine (orDefect_onlyDefects _ _).bind fun _ => ?_
      split
      · exact .defect
      · exact (row.first 1).bind fun _ => .pure
    | cast =>
      unfold ofTree
      exact (orDefect_onlyDefects _ _).bind fun _ => (row.node _).bind fun _ => .pure
    | expressionStatement =>
      unfold ofTree
      exact row.node _
    | _ => exact .defect

theorem row_onlyDefects (ps : List Tree) : RowDefects ps := .of fun t _ => ofTree_onlyDefects t

theorem ofArguments_onlyDefects (ps : List Tree) : OnlyDefects (ofArguments ps) := by
  unfold ofArguments
  split
  · refine .mapM (fun t => ?_) _
    unfold ofArgument
    split
    · exact (ofTree_onlyDefects _).1.bind fun _ => .pure
    · exact .defect
  · exact .pure

theorem ofMutation_onlyDefects (t : Tree) : OnlyDefects (ofMutation t) :=
  (orDefect_onlyDefects _ _).bind fun _ => (ofArguments_onlyDefects _).bind fun _ => .pure

end Value

/-! ## Records -/

namespace Script

open Value

theorem fill_onlyDefects (r : Record) (v : Tree) : OnlyDefects (fill r v) := by
  unfold fill
  split
  · exact (orDefect_onlyDefects _ _).bind fun _ => (ofArguments_onlyDefects _).bind fun _ => .pure
  · refine ((row_onlyDefects _).node _).bind fun _ => ?_
    exact (OnlyDefects.mapM ofMutation_onlyDefects _).bind fun _ => .pure
  · exact (orDefect_onlyDefects _ _).bind fun _ => (ofArguments_onlyDefects _).bind fun _ => .pure
  all_goals exact (ofTree_onlyDefects _).1.bind fun _ => .pure

theorem parameter_onlyDefects (t : Tree) : OnlyDefects (parameter t) := by
  unfold parameter
  split
  · exact .pure
  · exact .defect

theorem recordOf_onlyDefects (line : Coord) (t : Tree) : OnlyDefects (recordOf line t) := by
  have row := row_onlyDefects t.parts
  unfold recordOf
  dsimp only
  split
  -- assignments
  case h_1 =>
    split
    · exact (row_onlyDefects _).path.bind fun _ => fill_onlyDefects _ _
    · exact .defect
  -- calls, and values that are statements
  case h_2 | h_3 | h_4 => exact fill_onlyDefects _ _
  case h_5 => exact (ofTree_onlyDefects t).1.bind fun _ => .pure
  -- imports
  case h_20 =>
    split
    · exact (ofTree_onlyDefects _).1.bind fun _ => .pure
    · exact .defect
  -- what is left has a value in front, a name, or nothing that could be missing
  all_goals first
    | exact .pure
    | exact .defect
    | exact (row.node _).bind fun _ => .pure
    | exact (row.first 1).bind fun _ => .pure
    | exact (orDefect_onlyDefects _ _).bind fun _ =>
        (OnlyDefects.mapM parameter_onlyDefects _).bind fun _ => .pure
    | exact (orDefect_onlyDefects _ _).bind fun _ => (ofArguments_onlyDefects _).bind fun _ => .pure

/-! ## Scripts -/

theorem add_onlyDefects (source : String) (s : Script) (r : Record) :
    OnlyDefects (add source s r) := by
  unfold add insert
  split
  · exact .pure
  · exact .defect

/-- Only defects stop the records of a row of parts, whichever of its nodes they are made of. -/
structure RowScripts (source : String) (ps : List Tree) : Prop where
  statements : ∀ place s, OnlyDefects (ofStatements source place s ps)
  body : ∀ place s, OnlyDefects (ofBody source place s ps)
  continuations : ∀ rules place s, OnlyDefects (ofContinuations source rules place s ps)

/-- The same for the records of a statement. -/
structure TreeScripts (source : String) (t : Tree) : Prop where
  statement : ∀ place s, OnlyDefects (ofStatement source place s t)
  row : RowScripts source t.parts

theorem RowScripts.of {source : String} {ps : List Tree} (h : ∀ p ∈ ps, TreeScripts source p) :
    RowScripts source ps := by
  induction ps with
  | nil => exact ⟨fun _ _ => .pure, fun _ _ => .pure, fun _ _ _ => .pure⟩
  | cons p ps ih =>
    obtain ⟨hp, hps⟩ := List.forall_mem_cons.1 h
    have ih := ih hps
    cases p with
    | token t => exact ⟨ih.statements, ih.body, ih.continuations⟩
    | node r l inner =>
      refine ⟨fun place s => ?_, fun place s => ?_, fun rules place s => ?_⟩
      · unfold ofStatements
        exact (hp.statement _ s).bind fun s => ih.statements place s
      · by_cases hr : r = .block
        · subst hr
          exact hp.row.statements place s
        · have hc : ofBody source place s (.node r l inner :: ps) = ofBody source place s ps := by
            cases r <;> first | exact absurd rfl hr | rfl
          rw [hc]
          exact ih.body place s
      · unfold ofContinuations
        dsimp only
        split
        · refine (orDefect_onlyDefects _ _).bind fun line => (recordOf_onlyDefects _ _).bind fun r => ?_
          refine (add_onlyDefects _ _ _).bind fun s => (hp.row.body _ s).bind fun s => ?_
          exact ih.continuations rules place s
        · exact ih.continuations rules place s

theorem treeScripts (source : String) (t : Tree) : TreeScripts source t := by
  induction t using Tree.byParts with
  | token u => exact ⟨fun _ _ => .pure, .of nofun⟩
  | node rule line ps ih =>
    have row : RowScripts source ps := .of ih
    refine ⟨fun place s => ?_, row⟩
    unfold ofStatement
    refine (orDefect_onlyDefects _ _).bind fun line => ?_
    dsimp only
    split
    · exact .defect
    · refine (recordOf_onlyDefects _ _).bind fun r => ?_
      split
      · refine (add_onlyDefects _ _ _).bind fun s => (row.body _ s).bind fun s => ?_
        exact row.continuations _ place s
      · exact add_onlyDefects _ _ _

end Script

/-- Only defects stop a tree from being compiled. -/
theorem CompiledStory.ofTree_onlyDefects (source : String) (t : Tree) (services : List String) :
    OnlyDefects (ofTree source t services) := by
  have hrow : Script.RowScripts source t.parts := (Script.treeScripts source t).row
  exact OnlyDefects.bind ((hrow.statements _ _).bind fun _ => .pure) fun _ => .pure

end StoryLang
