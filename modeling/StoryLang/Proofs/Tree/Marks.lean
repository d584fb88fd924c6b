/-
The marks, words and strings of values.

A list stands between brackets and a map between braces, a literal that is a
keyword is one of its own keywords, an operator is one of the grammar's, and a
type starts with the name of one. A tree that was read has them all in their
places, and every string is in a node of its own. So what is done with the
nodes of strings is done with all strings.
-/
import StoryLang.Proofs.Tree.Names

namespace StoryLang

namespace Tree

/-- A token at a place of a row is of such a kind. -/
def KindAt (ps : List Tree) (i : Nat) (P : TokenKind → Prop) : Prop :=
  ∀ u : Token, ps[i]? = some (.token u) → P u.kind

/-- A row starts and ends with tokens of these kinds. -/
def Between (opening closing : TokenKind) (ps : List Tree) : Prop :=
  KindAt ps 0 (· = opening) ∧ KindAt ps (ps.length - 1) (· = closing)

/-- The tokens among the parts of a value are those that its rule asks for. -/
def Marked (g : Grammar) : Tree → Prop
  | .node .list _ ps => Between (.symbol .leftBracket) (.symbol .rightBracket) ps
  | .node .map _ ps => Between (.symbol .leftBrace) (.symbol .rightBrace) ps
  | .node .boolean _ ps => KindAt ps 0 fun k => k = .keyword .trueWord ∨ k = .keyword .falseWord
  | .node .null _ ps => KindAt ps 0 (· = .keyword .nullWord)
  | .node .unaryExpression _ ps => KindAt ps 0 fun k => (g.operators.before? k).isSome
  | .node .binaryExpression _ ps => KindAt ps 1 fun k => (g.operators.between? k).isSome
  | .node .cast _ ps => KindAt ps 1 (· = .keyword .asWord)
  | .node .types _ ps => KindAt ps 0 fun k => k = .keyword .functionWord ∨ k = .name
  | _ => True

variable {opening closing : Token} {items : List Tree}

@[simp] theorem kindAt_token {u : Token} {ps : List Tree} {P : TokenKind → Prop} :
    KindAt (.token u :: ps) 0 P ↔ P u.kind := by
  simp [KindAt]

@[simp] theorem kindAt_second {t : Tree} {u : Token} {ps : List Tree} {P : TokenKind → Prop} :
    KindAt (t :: .token u :: ps) 1 P ↔ P u.kind := by
  simp [KindAt]

@[simp] theorem between_iff {k k' : TokenKind} :
    Between k k' (.token opening :: (items ++ [.token closing])) ↔ opening.kind = k ∧ closing.kind = k' := by
  simp [Between, KindAt]

@[simp] theorem between_nil {k k' : TokenKind} :
    Between k k' [.token opening, .token closing] ↔ opening.kind = k ∧ closing.kind = k' := by
  simp [Between, KindAt]

end Tree

theorem Grammar.isTypeWord.kind {g : Grammar} {t : Token} (h : g.isTypeWord t) :
    t.kind = .keyword .functionWord ∨ t.kind = .name :=
  h.imp id And.left

/-- Every node of a tree that was read is marked. -/
theorem Derives.marked {g : Grammar} {p : Phrase} {ts : List Token} {trees : List Tree}
    (h : Derives g p ts trees) : ∀ n ∈ Tree.walkAll trees, n.Marked g := by
  induction h
  case typeName word => simpa [Tree.walk, Tree.walkAll, Tree.Marked] using word.kind
  case typeParts word _ _ _ ih => simpa [Tree.walk, Tree.walkAll, Tree.Marked, word.kind] using ih
  -- the kinds are those of the rule, and the other nodes are in smaller trees
  all_goals simp_all [Tree.walk, Tree.walkAll, Tree.Marked, or_imp, forall_and]

/-! ## Strings -/

theorem TokenKind.ne_string_ofOperatorText {word : String} {k : TokenKind}
    (h : ofOperatorText? word = some k) : k ≠ .string := by
  simp only [ofOperatorText?, Option.or_eq_some_iff, Option.map_eq_some_iff] at h
  rcases h with ⟨s, -, rfl⟩ | ⟨-, w, -, rfl⟩ <;> simp

/-- No operator is a string. -/
theorem Grammar.Accepted.noString {g : Grammar} (hg : g.Accepted) :
    g.operators.between? .string = none ∧ g.operators.before? .string = none := by
  have hne : ∀ o : Operator, o.Declared → ¬ o.kind = .string := by
    rintro o ⟨⟨word, hw⟩, -⟩
    exact TokenKind.ne_string_ofOperatorText hw
  simp only [OperatorTable.between?, OperatorTable.before?, List.find?_eq_none, decide_eq_true_eq]
  exact ⟨fun o ho => hne o (hg.declared o (List.mem_append_left _ ho)),
    fun o ho => hne o (hg.declared o (List.mem_append_right _ ho))⟩

namespace Tree

/-- Every string of the tree is in a node of its own. -/
inductive Housed : Tree → Prop where
  | token {u : Token} (other : u.kind ≠ .string) : Housed (.token u)
  | string {line u} : Housed (.node .string line [.token u])
  | node {rule line ps} (parts : ∀ p ∈ ps, Housed p) : Housed (.node rule line ps)

@[simp] theorem housed_token {u : Token} : (token u).Housed ↔ u.kind ≠ .string := by
  refine ⟨fun h => ?_, .token⟩
  cases h with
  | token other => exact other

@[simp] theorem housed_string {line : Option Coord} {u : Token} :
    (node .string line [.token u]).Housed :=
  .string

@[simp] theorem housed_node {rule : Rule} {line : Option Coord} {ps : List Tree} (hr : rule ≠ .string) :
    (node rule line ps).Housed ↔ ∀ p ∈ ps, p.Housed := by
  refine ⟨fun h => ?_, .node⟩
  cases h with
  | string => exact absurd rfl hr
  | node parts => exact parts

theorem Housed.mem_walk {t : Tree} (h : t.Housed) {u : Token} (hu : u ∈ t.yield) (hk : u.kind = .string) :
    ∃ line, .node .string line [.token u] ∈ t.walk := by
  induction h with
  | token other =>
    obtain rfl := List.mem_singleton.1 hu
    exact absurd hk other
  | @string line v =>
    obtain rfl : u = v := by simpa [yield, yieldAll] using hu
    exact ⟨line, by simp [walk, walkAll]⟩
  | @node rule line ps _ ih =>
    obtain ⟨p, hp, hu⟩ := of_mem_yieldAll hu
    obtain ⟨line', hn⟩ := ih p hp hu
    refine ⟨line', ?_⟩
    rw [walk, walkAll_eq]
    exact List.mem_cons_of_mem _ (List.mem_flatMap.2 ⟨p, hp, hn⟩)

end Tree

theorem Derives.housed {g : Grammar} (hg : g.Accepted) {p : Phrase} {ts : List Token}
    {trees : List Tree} (h : Derives g p ts trees) : ∀ t ∈ trees, t.Housed := by
  induction h
  case typeName word => simpa [Tree.of] using word.not_string
  case typeParts word _ _ _ ih => simpa [Tree.of, word.not_string] using ih
  case number kind => rcases kind with kind | kind <;> simp [Tree.of, kind]
  case boolean kind => rcases kind with kind | kind <;> simp [Tree.of, kind]
  case unary sign ts t operator operand ih =>
    have hsign : sign.kind ≠ .string := fun hk => by simp [hk, hg.noString] at operator
    simpa [Tree.of, hsign] using ih
  case binary sign us right first operator second ih ih' =>
    have hsign : sign.kind ≠ .string := fun hk => by simp [hk, hg.noString] at operator
    simp_all [Tree.of]
  -- every other token has a kind of its own, or is in a smaller tree
  all_goals simp_all [Tree.of, or_imp, forall_and]

end StoryLang
