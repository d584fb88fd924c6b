/-
No block is empty.

A block that was read without a statement would have had its dedent directly
after its indent, and no text has that: a dedent is put where a line starts or
where the text ends, and in front of it is the end of the line before or
another dedent. An indent is followed by code.
-/
import Mathlib.Data.List.Chain
import StoryLang.Proofs.Token.Layout
import StoryLang.Proofs.Tree.Derivation
import StoryLang.Proofs.Tree.Names

/-! ## Something comes between an indent and a dedent -/

namespace StoryLang

/-- A token that may come directly after another one: a dedent does not close
an indentation that was opened just before. -/
def Token.Parts (t u : Token) : Prop := u.kind = .dedent → t.kind ≠ .indent

/-- No indent has its dedent directly after it. -/
def Apart (tokens : List Token) : Prop := tokens.IsChain Token.Parts

namespace Apart

variable {t : Token} {ts us : List Token}

theorem left (h : Apart (ts ++ us)) : Apart ts := List.IsChain.left_of_append h

theorem right (h : Apart (ts ++ us)) : Apart us := List.IsChain.right_of_append h

theorem tail (h : Apart (t :: ts)) : Apart ts := List.IsChain.tail h

theorem front (h : Apart us) (hp : ts <+: us) : Apart ts := List.IsChain.prefix h hp

theorem of_noIndent (h : ∀ t ∈ ts, t.kind ≠ .indent) : Apart ts :=
  List.Pairwise.isChain (List.pairwise_of_forall_mem_list fun t ht _ _ _ => h t ht)

end Apart

/-- Tokens that are laid out keep indents and dedents apart. -/
theorem Scan.Laid.apart {ts : List Token} {n : Nat} (h : Laid ts n) : Apart ts.reverse := by
  refine List.isChain_reverse.2 ?_
  induction ts generalizing n with
  | nil => exact .nil
  | cons u ts ih =>
    obtain ⟨k, hts⟩ := Scan.Laid.earlier (show Laid ([u] ++ ts) n from h)
    refine List.isChain_cons.2 ⟨fun t ht hu hk => ?_, ih hts⟩
    obtain ⟨others, rfl⟩ : ∃ others, ts = t :: others := by
      cases ts <;> simp_all
    have hleads := h.last_leads
    rw [hu, show lastKind (t :: others) = t.kind from rfl, hk] at hleads
    cases hleads

/-- In a text no indent has its dedent directly after it. -/
theorem scan_apart {m : ScanMode} {text : List Char} {tokens : List Token}
    (h : (scan m text).tokens = .ok tokens) : Apart tokens := by
  obtain ⟨hlaid, -⟩ := Scan.State.laid_run (Scan.State.ordered_start text) h
  simpa using hlaid.apart

end StoryLang

namespace StoryLang

namespace Tree

variable {r : Rule} {l : Option Coord} {ps ts us : List Tree} {t : Tree} {u : Token}

/-- Every list of statements in a row of trees has a statement. -/
def FilledAll (ts : List Tree) : Prop := ∀ list ∈ listsAll ts, list ≠ []

/-- Every list of statements in a tree has a statement. -/
def Filled (t : Tree) : Prop := ∀ list ∈ t.lists, list ≠ []

@[simp] theorem filledAll_nil : FilledAll [] := by simp [FilledAll]

@[simp] theorem filledAll_cons : FilledAll (t :: ts) ↔ t.Filled ∧ FilledAll ts := by
  rw [FilledAll, listsAll_cons, List.forall_mem_append]
  exact Iff.rfl

@[simp] theorem filledAll_append : FilledAll (ts ++ us) ↔ FilledAll ts ∧ FilledAll us := by
  rw [FilledAll, listsAll_append, List.forall_mem_append]
  exact Iff.rfl

theorem filledAll_iff : FilledAll ts ↔ ∀ t ∈ ts, t.Filled := by
  induction ts with
  | nil => simp
  | cons t ts ih => simp [ih]

@[simp] theorem filled_token : (token u).Filled := by simp [Filled]

theorem filled_node : (node r l ps).Filled ↔ (r = .block ∨ r = .start → ps ≠ []) ∧ FilledAll ps := by
  by_cases h : r = .block ∨ r = .start
  · rw [Filled, lists_holds h, List.forall_mem_cons]
    simp [h, FilledAll]
  · rw [not_or] at h
    rw [Filled, lists_other h.1 h.2]
    simp [h, FilledAll]

/-- The parts of a tree have no more lists of statements than the tree. -/
theorem Filled.parts (h : t.Filled) : FilledAll t.parts := by
  cases t with
  | token u => exact filledAll_nil
  | node r l ps => exact (filled_node.1 h).2

theorem filled_other (hr : r ≠ .block ∧ r ≠ .start) : (node r l ps).Filled ↔ FilledAll ps := by
  simp [filled_node, hr]

end Tree

/-- Only a call of a service may do without its block. -/
theorem Content.exists_block {P : Token → Prop} {g : Grammar} {s : Stage} {rule : Rule}
    {ps : List Tree} (h : Content P g s rule ps)
    (hr : rule.hasBlock = true) (hc : rule ≠ .serviceCall) : ∃ p ∈ ps, p.isA .block = true := by
  cases h with
  | serviceCall => exact absurd rfl hc
  | ifBlock _ block | elifBlock _ block | elseBlock block | foreachBlock _ _ block
  | whileBlock _ block | tryBlock block | catchBlock block | catchAs _ block | finallyBlock block
  | functionBlock _ _ block | whenBlock _ _ block | whenAs _ _ _ block => exact ⟨_, by simp, block⟩
  | _ => cases hr

/-- What is read from tokens of a text has no empty block. -/
theorem Derives.filled {g : Grammar} {p : Phrase} {ts : List Token} {trees : List Tree}
    (h : Derives g p ts trees) : Apart ts → Tree.FilledAll trees := by
  induction h
  case body opening ts closing statements opens inner closes ih =>
    intro ha
    simp only [Tree.of, Tree.filledAll_cons, Tree.filledAll_nil, and_true, Tree.filled_node]
    refine ⟨fun _ hnil => ?_, ih ha.left.tail⟩
    subst hnil
    cases inner with
    | noStatements => exact (List.isChain_cons_cons.1 ha).1 closes opens
  -- no other phrase makes a block
  all_goals simp only [Tree.of, Tree.filledAll_cons, Tree.filledAll_append, Tree.filledAll_nil,
    Tree.filled_node, Tree.filled_token] at *
  all_goals grind [→ Apart.left, → Apart.right, → Apart.tail]

end StoryLang
