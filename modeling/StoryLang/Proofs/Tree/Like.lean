/-
Trees with the same nodes over other tokens.

`Tree.Like R N` says that two trees differ in their tokens only, that these are
related by `R`, and the rows of parts of a rule by `N`. Paths, arguments,
parameters and types are known by the word they start with: by `Tree.Named`
that is the same in both trees, unless it is the keyword that is a type too.
What is looked up in such trees is found in both or in none.

A tree without its columns is what it says in a report besides its lines.
-/
import Mathlib.Data.List.Forall2
import StoryLang.Tree.Basic

namespace StoryLang

section Rows

variable {α : Type} {L : α → α → Prop} {as as' : List α}

theorem rel_find? {p : α → Bool} (h : List.Forall₂ L as as') (hp : ∀ a a', L a a' → p a' = p a) :
    Option.Rel L (as.find? p) (as'.find? p) := by
  induction h with
  | nil => exact .none
  | @cons a a' _ _ ha _ ih =>
    rw [List.find?_cons, List.find?_cons, hp a a' ha]
    split
    · exact .some ha
    · exact ih

theorem rel_filter {p : α → Bool} (h : List.Forall₂ L as as') (hp : ∀ a a', L a a' → p a' = p a) :
    List.Forall₂ L (as.filter p) (as'.filter p) :=
  List.rel_filter (fun a a' ha => iff_of_eq (congrArg (· = true) (hp a a' ha).symm)) h

theorem rel_any {p : α → Bool} (h : List.Forall₂ L as as') (hp : ∀ a a', L a a' → p a' = p a) :
    as'.any p = as.any p := by
  induction h with
  | nil => rfl
  | cons ha _ ih => rw [List.any_cons, List.any_cons, hp _ _ ha, ih]

theorem rel_getElem? (h : List.Forall₂ L as as') (i : Nat) : Option.Rel L as[i]? as'[i]? := by
  induction h generalizing i with
  | nil => exact .none
  | cons ha _ ih =>
    cases i with
    | zero => exact .some ha
    | succ i => exact ih i

theorem rel_head? (h : List.Forall₂ L as as') : Option.Rel L as.head? as'.head? := by
  cases h with
  | nil => exact .none
  | cons ha _ => exact .some ha

theorem rel_getLast? (h : List.Forall₂ L as as') : Option.Rel L as.getLast? as'.getLast? := by
  rw [← List.head?_reverse, ← List.head?_reverse]
  exact rel_head? (List.rel_reverse h)

/-- Both are there or neither is. -/
theorem rel_cases {a a' : Option α} (h : Option.Rel L a a') :
    (a = none ∧ a' = none) ∨ ∃ x x', a = some x ∧ a' = some x' ∧ L x x' := by
  cases h with
  | none => exact .inl ⟨rfl, rfl⟩
  | some hx => exact .inr ⟨_, _, rfl, rfl, hx⟩

end Rows

/-- Related tokens are of the same kind, and names are the same. -/
structure Token.ReadsAs (R : Token → Token → Prop) : Prop where
  kind : ∀ t t', R t t' → t'.kind = t.kind
  name : ∀ t t', R t t' → t.kind = .name → t'.literal = t.literal

/-- Related tokens are also on the same line. -/
structure Token.Agrees (R : Token → Token → Prop) : Prop extends Token.ReadsAs R where
  line : ∀ t t', R t t' → t'.line = t.line

/-- Nodes that are known by the word they start with. -/
def Rule.isNamed : Rule → Bool
  | .path | .argument | .parameter | .types => true
  | _ => false

namespace Tree

/-- Both rows start with a token, and the two are related. -/
def Heads (H : Token → Token → Prop) (ps ps' : List Tree) : Prop :=
  ∃ u ts u' ts', ps = .token u :: ts ∧ ps' = .token u' :: ts' ∧ H u u'

/-- The words at the start of two nodes of a rule: the same, or that of the
keyword that is a type too. -/
def SameWord (r : Rule) (u u' : Token) : Prop :=
  u'.literal = u.literal ∨ r = .types ∧ u.kind = .keyword .functionWord

/-- Nodes that are known by a word start with the same one. -/
def Named (r : Rule) (ps ps' : List Tree) : Prop := r.isNamed = true → Heads (SameWord r) ps ps'

/-- The trees have the same nodes, with related rows of parts, and related tokens. -/
inductive Like (R : Token → Token → Prop) (N : Rule → List Tree → List Tree → Prop) :
    Tree → Tree → Prop where
  | token {t t'} (related : R t t') : Like R N (.token t) (.token t')
  | node {r l ps ps'} (row : N r ps ps') (parts : List.Forall₂ (Like R N) ps ps') :
    Like R N (.node r l ps) (.node r l ps')

/-- Rows of such trees. -/
abbrev LikeAll (R : Token → Token → Prop) (N : Rule → List Tree → List Tree → Prop)
    (ps ps' : List Tree) : Prop :=
  List.Forall₂ (Like R N) ps ps'

theorem Named.other {r : Rule} (hr : r.isNamed = false) (ps ps' : List Tree) : Named r ps ps' :=
  fun h => absurd h (by simp [hr])

variable {R R' : Token → Token → Prop} {N N' : Rule → List Tree → List Tree → Prop}
  {t t' : Tree} {ps ps' : List Tree}

mutual

theorem Like.yield : ∀ t t' : Tree, Like R N t t' → List.Forall₂ R t.yield t'.yield
  | .token _, _, .token related => .cons related .nil
  | .node _ _ ps, .node _ _ ps', .node _ parts => LikeAll.yieldAll ps ps' parts

theorem LikeAll.yieldAll : ∀ ps ps' : List Tree, LikeAll R N ps ps' →
    List.Forall₂ R (Tree.yieldAll ps) (Tree.yieldAll ps')
  | [], _, .nil => .nil
  | p :: ps, p' :: ps', .cons first rest =>
    List.rel_append (Like.yield p p' first) (LikeAll.yieldAll ps ps' rest)

end

mutual

theorem Like.walk : ∀ t t' : Tree, Like R N t t' → LikeAll R N t.walk t'.walk
  | .token _, _, .token _ => .nil
  | .node _ _ ps, .node _ _ ps', .node row parts =>
    .cons (.node row parts) (LikeAll.walkAll ps ps' parts)

theorem LikeAll.walkAll : ∀ ps ps' : List Tree, LikeAll R N ps ps' →
    LikeAll R N (Tree.walkAll ps) (Tree.walkAll ps')
  | [], _, .nil => .nil
  | p :: ps, p' :: ps', .cons first rest =>
    List.rel_append (Like.walk p p' first) (LikeAll.walkAll ps ps' rest)

end

namespace Like

theorem rule? (h : Like R N t t') : t'.rule? = t.rule? := by cases h <;> rfl

theorem isA (r : Rule) (t t' : Tree) (h : Like R N t t') : t'.isA r = t.isA r := by
  rw [Tree.isA, h.rule?, Tree.isA]

theorem isNode (t t' : Tree) (h : Like R N t t') : t'.isNode = t.isNode := by cases h <;> rfl

theorem ownLine? (h : Like R N t t') : t'.ownLine? = t.ownLine? := by cases h <;> rfl

theorem parts (h : Like R N t t') : LikeAll R N t.parts t'.parts := by
  cases h with
  | token => exact .nil
  | node _ parts => exact parts

theorem asToken? (h : Like R N t t') : Option.Rel R t.asToken? t'.asToken? := by
  cases h with
  | token related => exact .some related
  | node => exact .none

theorem firstToken? (h : Like R N t t') : Option.Rel R t.firstToken? t'.firstToken? := by
  rw [firstToken?_eq_head?, firstToken?_eq_head?]
  exact rel_head? (Like.yield t t' h)

theorem line? (h : Like R N t t') (hR : Token.Agrees R) : t'.line? = t.line? := by
  have hf := h.firstToken?
  unfold Tree.line?
  rw [h.ownLine?]
  revert hf
  generalize t.firstToken? = first, t'.firstToken? = first'
  rintro (hu | _)
  · simp only [Option.map_some, hR.line _ _ hu]
  · rfl

theorem node? (h : Like R N t t') (i : Nat) : Option.Rel (Like R N) (t.node? i) (t'.node? i) :=
  rel_getElem? (rel_filter h.parts isNode) i

theorem find? (h : Like R N t t') (r : Rule) : Option.Rel (Like R N) (t.find? r) (t'.find? r) :=
  rel_find? h.parts (isA r)

theorem findAll (h : Like R N t t') (r : Rule) : LikeAll R N (t.findAll r) (t'.findAll r) :=
  rel_filter h.parts (isA r)

end Like

mutual

/-- More is known of the tokens and rows of two such trees. -/
theorem Like.imp : ∀ t t' : Tree, Like R N t t' →
    (∀ u ∈ t.yield, ∀ u' ∈ t'.yield, R u u' → R' u u') →
    (∀ r l ps ps', Tree.node r l ps ∈ t.walk → Tree.node r l ps' ∈ t'.walk → N r ps ps' →
      LikeAll R N ps ps' → N' r ps ps') → Like R' N' t t'
  | .token u, .token u', .token related, hR, _ =>
    .token (hR u (by simp [Tree.yield]) u' (by simp [Tree.yield]) related)
  | .node r l ps, .node _ _ ps', .node row parts, hR, hN => by
    refine .node (hN r l ps ps' (by simp [walk]) (by simp [walk]) row parts)
      (LikeAll.imp ps ps' parts hR fun r l qs qs' hq hq' => hN r l qs qs' ?_ ?_)
    · simp [walk, hq]
    · simp [walk, hq']

theorem LikeAll.imp : ∀ ps ps' : List Tree, LikeAll R N ps ps' →
    (∀ u ∈ Tree.yieldAll ps, ∀ u' ∈ Tree.yieldAll ps', R u u' → R' u u') →
    (∀ r l qs qs', Tree.node r l qs ∈ walkAll ps → Tree.node r l qs' ∈ walkAll ps' → N r qs qs' →
      LikeAll R N qs qs' → N' r qs qs') → LikeAll R' N' ps ps'
  | [], _, .nil, _, _ => .nil
  | p :: ps, p' :: ps', .cons first rest, hR, hN => by
    refine .cons (Like.imp p p' first (fun u hu u' hu' => hR u ?_ u' ?_)
      fun r l qs qs' hq hq' => hN r l qs qs' ?_ ?_)
      (LikeAll.imp ps ps' rest (fun u hu u' hu' => hR u ?_ u' ?_)
        fun r l qs qs' hq hq' => hN r l qs qs' ?_ ?_) <;>
    simp [Tree.yieldAll, walkAll, *]

end

mutual

/-- Such trees are the same if their tokens are. -/
theorem Like.eq : ∀ t t' : Tree, Like R N t t' → (∀ u ∈ t.yield, ∀ u', R u u' → u' = u) → t' = t
  | .token u, .token u', .token related, h => by rw [h u (by simp [Tree.yield]) u' related]
  | .node r l ps, .node _ _ ps', .node _ parts, h => by
    rw [LikeAll.eq ps ps' parts fun u hu => h u (by simpa [Tree.yield] using hu)]

theorem LikeAll.eq : ∀ ps ps' : List Tree, LikeAll R N ps ps' →
    (∀ u ∈ Tree.yieldAll ps, ∀ u', R u u' → u' = u) → ps' = ps
  | [], _, .nil, _ => rfl
  | p :: ps, p' :: ps', .cons first rest, h => by
    rw [Like.eq p p' first fun u hu => h u (by simp [Tree.yieldAll, hu]),
      LikeAll.eq ps ps' rest fun u hu => h u (by simp [Tree.yieldAll, hu])]

end

namespace LikeAll

theorem tokens (h : LikeAll R N ps ps') :
    List.Forall₂ R (ps.filterMap asToken?) (ps'.filterMap asToken?) :=
  List.rel_filterMap (fun _ _ h => Like.asToken? h) h

theorem firstToken? (h : LikeAll R N ps ps') :
    Option.Rel R (firstTokenOf? ps) (firstTokenOf? ps') := by
  rw [firstTokenOf?_eq_head? ps fun t _ => firstToken?_eq_head? t,
    firstTokenOf?_eq_head? ps' fun t _ => firstToken?_eq_head? t]
  exact rel_head? (LikeAll.yieldAll ps ps' h)

theorem putFirst {new new' : Option Tree} (h : LikeAll R N ps ps')
    (hn : Option.Rel (Like R N) new new') (r : Rule) :
    LikeAll R N (Tree.putFirst r new ps) (Tree.putFirst r new' ps') := by
  induction h with
  | nil => exact .nil
  | @cons p p' _ _ hp hps ih =>
    cases hn with
    | none => exact .cons hp hps
    | some hn =>
      simp only [Tree.putFirst, Like.isA r p p' hp]
      split
      · exact .cons hn hps
      · exact .cons hp ih

theorem putNode {new new' : Option Tree} (h : LikeAll R N ps ps')
    (hn : Option.Rel (Like R N) new new') (i : Nat) :
    LikeAll R N (Tree.putNode new i ps) (Tree.putNode new' i ps') := by
  induction h generalizing i with
  | nil => cases hn <;> exact .nil
  | @cons p p' _ _ hp hps ih =>
    cases hn with
    | none => cases i <;> exact .cons hp hps
    | some hn =>
      rw [Tree.putNode.eq_def, Tree.putNode.eq_def]
      simp only [Like.isNode p p' hp]
      split
      · cases i with
        | zero => exact .cons hn hps
        | succ i => exact .cons hp (ih i)
      · exact .cons hp (ih i)

end LikeAll

end Tree

end StoryLang

/-! ## Trees without columns -/

namespace StoryLang

/-- The token without its column. -/
def Token.withoutColumn (t : Token) : Token := { t with position := ⟨t.line, 0⟩ }

namespace Tree

mutual

/-- The tree with no columns in its tokens. -/
def withoutColumns : Tree → Tree
  | token t => token t.withoutColumn
  | node rule line ps => node rule line (withoutColumnsAll ps)

/-- A row of trees with no columns in their tokens. -/
def withoutColumnsAll : List Tree → List Tree
  | [] => []
  | t :: ts => withoutColumns t :: withoutColumnsAll ts

end

variable {N : Rule → List Tree → List Tree → Prop}

mutual

/-- Trees whose tokens are the same but for columns. -/
theorem Like.withoutColumns : ∀ t t' : Tree, Like (fun u u' => u'.withoutColumn = u.withoutColumn) N t t' →
    t'.withoutColumns = t.withoutColumns
  | .token _, _, .token related => congrArg token related
  | .node r l ps, .node _ _ ps', .node _ parts => congrArg (node r l) (LikeAll.withoutColumnsAll ps ps' parts)

theorem LikeAll.withoutColumnsAll : ∀ ps ps' : List Tree,
    LikeAll (fun u u' => u'.withoutColumn = u.withoutColumn) N ps ps' →
      Tree.withoutColumnsAll ps' = Tree.withoutColumnsAll ps
  | [], _, .nil => rfl
  | p :: ps, p' :: ps', .cons first rest => by
    simp only [Tree.withoutColumnsAll, Like.withoutColumns p p' first,
      LikeAll.withoutColumnsAll ps ps' rest]

end

end Tree

end StoryLang
