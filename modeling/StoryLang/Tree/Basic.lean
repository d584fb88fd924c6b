/-
The tree of a story: tokens, and nodes that hold tokens and nodes in order.

One kind of tree serves from reading a story to compiling it. A node has a
coordinate of its own only if it was taken out of another statement; every
other node stands on the line of its first token.
-/
import StoryLang.Coord
import StoryLang.Token.Basic
import StoryLang.Tree.Rule

namespace StoryLang

/-- A token, or a node with its rule, its coordinate if it has one of its own,
and its parts. -/
inductive Tree where
  | token (t : Token)
  | node (rule : Rule) (line : Option Coord) (parts : List Tree)
  deriving Repr

namespace Tree

/-! ## Equality -/

mutual

/-- Whether two trees are the same. -/
def same : Tree → Tree → Bool
  | token t, token u => t = u
  | node r l ps, node r' l' ps' => r = r' && l = l' && sameAll ps ps'
  | _, _ => false

/-- Whether two rows of trees are the same. -/
def sameAll : List Tree → List Tree → Bool
  | [], [] => true
  | t :: ts, u :: us => same t u && sameAll ts us
  | _, _ => false

end

mutual

theorem same_iff : ∀ a b : Tree, same a b = true ↔ a = b
  | token t, token u => by simp [same]
  | node r l ps, node r' l' ps' => by simp [same, sameAll_iff ps ps', and_assoc]
  | token _, node _ _ _ => by simp [same]
  | node _ _ _, token _ => by simp [same]

theorem sameAll_iff : ∀ as bs : List Tree, sameAll as bs = true ↔ as = bs
  | [], [] => by simp [sameAll]
  | a :: as, b :: bs => by simp [sameAll, same_iff a b, sameAll_iff as bs]
  | [], _ :: _ => by simp [sameAll]
  | _ :: _, [] => by simp [sameAll]

end

instance : DecidableEq Tree := fun a b => decidable_of_iff _ (same_iff a b)

/-! ## Parts -/

/-- A node without a coordinate of its own. -/
abbrev of (rule : Rule) (parts : List Tree) : Tree := node rule none parts

/-- The parts of a node. A token has none. -/
def parts : Tree → List Tree
  | token _ => []
  | node _ _ ps => ps

/-- The rule of a node. -/
def rule? : Tree → Option Rule
  | token _ => none
  | node r _ _ => some r

/-- Whether the tree is a node of that rule. -/
def isA (rule : Rule) (t : Tree) : Bool := t.rule? = some rule

/-- Whether the tree is a node and not a token. -/
def isNode : Tree → Bool
  | token _ => false
  | node _ _ _ => true

def asToken? : Tree → Option Token
  | token t => some t
  | node _ _ _ => none

/-- The coordinate a node has of its own. -/
def ownLine? : Tree → Option Coord
  | token _ => none
  | node _ l _ => l

/-- The parts that are nodes. -/
def nodes (t : Tree) : List Tree := t.parts.filter isNode

/-- The parts that are tokens. -/
def tokens (t : Tree) : List Token := t.parts.filterMap asToken?

/-- The part that comes as number `i` among the nodes, counted from zero. -/
def node? (t : Tree) (i : Nat) : Option Tree := t.nodes[i]?

/-- The first node of a rule among the parts. -/
def find? (t : Tree) (rule : Rule) : Option Tree := t.parts.find? (·.isA rule)

/-- The nodes of a rule among the parts. -/
def findAll (t : Tree) (rule : Rule) : List Tree := t.parts.filter (·.isA rule)

/-- The first token of a kind among the parts. -/
def token? (t : Tree) (kind : TokenKind) : Option Token := t.tokens.find? (·.kind = kind)

/-- The token of a node whose only part it is. -/
def leaf? : Tree → Option Token
  | node _ _ [token t] => some t
  | _ => none

/-- Puts a tree in the place of the first node of a rule in a row, if there is a tree to put. -/
def putFirst (rule : Rule) (new : Option Tree) : List Tree → List Tree
  | [] => []
  | t :: ts =>
    match new with
    | none => t :: ts
    | some n => if t.isA rule then n :: ts else t :: putFirst rule new ts

/-- Puts a tree in the place of node number `i` of a row, if there is a tree to put. -/
def putNode (new : Option Tree) : Nat → List Tree → List Tree
  | _, [] => []
  | i, t :: ts =>
    match new with
    | none => t :: ts
    | some n =>
      if t.isNode then
        match i with
        | 0 => n :: ts
        | i + 1 => t :: putNode new i ts
      else t :: putNode new i ts

mutual

/-- The first token at any depth. -/
def firstToken? : Tree → Option Token
  | token t => some t
  | node _ _ ps => firstTokenOf? ps

/-- The first token at any depth in a row of trees. -/
def firstTokenOf? : List Tree → Option Token
  | [] => none
  | t :: ts => (firstToken? t).or (firstTokenOf? ts)

end

/-- The place of the first token. -/
def position? (t : Tree) : Option Position := t.firstToken?.map (·.position)

/-- The coordinate of a tree: its own one, or the line of its first token. -/
def line? (t : Tree) : Option Coord :=
  t.ownLine?.or (t.firstToken?.map fun token => .ofLine token.line)

mutual

/-- The nodes of a tree, each before the nodes in it. -/
def walk : Tree → List Tree
  | token _ => []
  | node r l ps => node r l ps :: walkAll ps

/-- The nodes of a row of trees. -/
def walkAll : List Tree → List Tree
  | [] => []
  | t :: ts => walk t ++ walkAll ts

end

mutual

/-- The tokens of a tree from left to right. -/
def yield : Tree → List Token
  | token t => [t]
  | node _ _ ps => yieldAll ps

/-- The tokens of a row of trees from left to right. -/
def yieldAll : List Tree → List Token
  | [] => []
  | t :: ts => yield t ++ yieldAll ts

end

theorem firstTokenOf?_eq_head? (ts : List Tree) (h : ∀ t ∈ ts, firstToken? t = (yield t).head?) :
    firstTokenOf? ts = (yieldAll ts).head? := by
  induction ts with
  | nil => rfl
  | cons t ts ih =>
    simp only [firstTokenOf?, yieldAll]
    rw [h t (by simp), ih fun u hu => h u (by simp [hu])]
    cases yield t <;> simp

/-- The first token is the first of all tokens. -/
theorem firstToken?_eq_head? : ∀ t : Tree, firstToken? t = (yield t).head?
  | token t => rfl
  | node _ _ ps => by
    simp only [firstToken?, yield]
    exact firstTokenOf?_eq_head? ps fun t _ => firstToken?_eq_head? t

end Tree

end StoryLang
