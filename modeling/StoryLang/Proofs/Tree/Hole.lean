/-
Lists of statements with a hole in them.

The statements of a block are a hole in the list of statements that the block
is somewhere in: what is around them stays what it is when they are replaced.
Around a block there is the statement that owns it, and between the two there
may be a branch of that statement.
-/
import StoryLang.Proofs.Tree.Outline

namespace StoryLang

/-- A node without one of its parts. -/
structure Frame where
  rule : Rule
  line : Option Coord
  front : List Tree
  back : List Tree

/-- The node with the part. -/
def Frame.around (f : Frame) (t : Tree) : Tree := .node f.rule f.line (f.front ++ t :: f.back)

/-- What a block belongs to: a statement, or a branch of one. -/
structure Owner where
  statement : Frame
  branch : Option Frame
  /-- The coordinate of the block. -/
  line : Option Coord
  isBranch : ∀ b ∈ branch, b.rule.isBranch = true

namespace Owner

/-- The block. -/
def block (o : Owner) (ts : List Tree) : Tree := .node .block o.line ts

/-- The part of the statement that the block is in, or is. -/
def part (o : Owner) (ts : List Tree) : Tree :=
  match o.branch with
  | none => o.block ts
  | some b => b.around (o.block ts)

/-- The statement with the statements of its block. -/
def around (o : Owner) (ts : List Tree) : Tree := o.statement.around (o.part ts)

/-- What is directly around the block. -/
def frame (o : Owner) : Frame := o.branch.getD o.statement

/-- Which part of the statement the branch is. -/
def place (o : Owner) : Option Nat := o.branch.map fun _ => o.statement.front.length

end Owner

/-- Where some statements are: they are the list, or a block somewhere in it. -/
inductive Hole where
  | here
  | inside (before : List Tree) (owner : Owner) (rest : Hole) (after : List Tree)

namespace Hole

/-- The list with those statements. -/
def fill : Hole → List Tree → List Tree
  | here, ts => ts
  | inside before owner rest after, ts => before ++ owner.around (rest.fill ts) :: after

/-- What is directly around the block. -/
def frame? : Hole → Option Frame
  | here => none
  | inside _ owner rest _ => rest.frame?.or (some owner.frame)

theorem frame?_inside (before after : List Tree) (owner : Owner) {rest : Hole} (h : rest ≠ .here) :
    (inside before owner rest after).frame? = rest.frame? := by
  cases rest with
  | here => exact absurd rfl h
  | inside before' inner rest' after' =>
    cases hrest : rest'.frame? <;> simp [frame?, hrest]

/-- The way to the block: of each statement around it how many are in front, and
which of its parts is the branch. -/
def address : Hole → List (Nat × Option Nat)
  | here => []
  | inside before owner rest _ => (before.length, owner.place) :: rest.address

end Hole

/-! ## Blocks that stand where they belong -/

/-- What has to be in front of a block, from which its statement is checked: what a loop is
over, what a `when` listens to, the name of a function, and of a call everything else. -/
def Frame.Headed (g : Grammar) (f : Frame) : Prop :=
  match f.rule with
  | .whileBlock | .foreachBlock => f.front.any Tree.isNode = true
  | .whenBlock => ((f.front.find? (·.isA .path)).bind Tree.firstToken?).isSome = true
  | .functionBlock => ∃ u, Tree.token u ∈ f.front ∧ u.kind = .name
  | .serviceCall | .mutation => f.back = [] ∧ Formed Token.Sound g .plain (.node f.rule f.line f.front)
  | _ => True

/-- A node that a block belongs to has no block in front of it, and is told from others by
what it starts with. -/
structure Frame.OwnsBlock (g : Grammar) (f : Frame) : Prop where
  rule : f.rule.hasBlock = true ∨ f.rule = .mutation
  start : (Tree.firstTokenOf? f.front).isSome = true
  noBlock : ∀ p ∈ f.front, p.isA .block = false
  headed : f.Headed g

/-- A statement with branches of that rule. -/
inductive Rule.Branches : Rule → Rule → Prop where
  | elifBlock : Branches .ifBlock .elifBlock
  | elseBlock : Branches .ifBlock .elseBlock
  | catchBlock : Branches .tryBlock .catchBlock
  | finallyBlock : Branches .tryBlock .finallyBlock

theorem Rule.Branches.owner {r b : Rule} (h : r.Branches b) : r = .ifBlock ∨ r = .tryBlock := by
  cases h <;> simp

/-- The block is where its owner has it. -/
def Owner.Stands (g : Grammar) (o : Owner) : Prop :=
  match o.branch with
  | none => o.statement.rule.isStatement = true ∧ o.statement.OwnsBlock g
  | some b => o.statement.rule.Branches b.rule ∧
    (Tree.firstTokenOf? o.statement.front).isSome = true ∧ b.OwnsBlock g

/-- So are all blocks on the way to the hole. -/
def Hole.Stands (g : Grammar) : Hole → Prop
  | .here => True
  | .inside _ owner rest _ => owner.Stands g ∧ rest.Stands g

theorem Hole.Stands.ownsBlock {g : Grammar} {h : Hole} (hs : h.Stands g) : ∀ f ∈ h.frame?, f.OwnsBlock g := by
  induction h with
  | here => nofun
  | inside before owner rest after ih =>
    intro f hf
    rcases Option.or_eq_some_iff.1 hf with hf | ⟨-, hf⟩
    · exact ih hs.2 f hf
    · obtain rfl := Option.some.inj hf
      obtain ⟨statement, branch, line, isBranch⟩ := owner
      cases branch with
      | none => exact hs.1.2
      | some b => exact hs.1.2.2

/-! ## Blocks of plain trees -/

/-- A row has only one part for which `q` holds, wherever it is cut there. -/
theorem cut_unique {q : Tree → Bool} {front back pre post : List Tree} {b x : Tree}
    (h : front ++ b :: back = pre ++ x :: post) (hpre : ∀ p ∈ pre, q p = false)
    (hpost : ∀ p ∈ post, q p = false) (hb : q b = true) : front = pre ∧ b = x ∧ back = post := by
  induction front generalizing pre with
  | nil =>
    cases pre with
    | nil =>
      obtain ⟨rfl, rfl⟩ := List.cons.inj h
      exact ⟨rfl, rfl, rfl⟩
    | cons p pre =>
      obtain ⟨rfl, -⟩ := List.cons.inj h
      rw [hpre b (by simp)] at hb
      cases hb
  | cons p front ih =>
    cases pre with
    | nil =>
      obtain ⟨rfl, rfl⟩ := List.cons.inj h
      rw [hpost b (by simp)] at hb
      cases hb
    | cons p' pre =>
      simp only [List.cons_append, List.cons.injEq] at h
      obtain ⟨rfl, h⟩ := h
      obtain ⟨rfl, rfl, rfl⟩ := ih h fun p hp => hpre p (by simp [hp])
      exact ⟨rfl, rfl, rfl⟩

variable {g : Grammar} {f : Frame} {b : Tree} {ps : List Tree}

/-- A row that is cut at its block. -/
theorem Frame.OwnsBlock.of_cut (pre : List Tree) {post : List Tree} {x : Tree} (h : f.front ++ b :: f.back = pre ++ x :: post)
    (hb : b.isA .block = true) (hpre : ∀ p ∈ pre, p.isA .block = false)
    (hpost : ∀ p ∈ post, p.isA .block = false) (rule : f.rule.hasBlock = true ∨ f.rule = .mutation)
    (start : (Tree.firstTokenOf? pre).isSome = true)
    (headed : Frame.Headed g ⟨f.rule, f.line, pre, post⟩) : f.OwnsBlock g := by
  obtain ⟨rfl, -, rfl⟩ := cut_unique h hpre hpost hb
  exact ⟨rule, start, hpre, headed⟩

@[simp] theorem Tree.isA_token (r : Rule) (u : Token) : (Tree.token u).isA r = false := rfl

/-- A call has its block behind everything else. -/
theorem Extras.ownsBlock (pre : List Tree) {extra : List Tree} (h : f.front ++ b :: f.back = pre ++ extra)
    (hb : b.isA .block = true) (hpre : ∀ p ∈ pre, p.isA .block = false) (extras : Extras extra)
    (rule : f.rule = .serviceCall ∨ f.rule = .mutation)
    (content : ∀ {extra}, Extras extra → Content Token.Sound g .plain f.rule (pre ++ extra))
    (parts : ∀ p ∈ f.front, Formed Token.Sound g .plain p) : f.OwnsBlock g := by
  have hrule : f.rule.hasBlock = true ∨ f.rule = .mutation := rule.imp (fun hr => by rw [hr]; rfl) id
  have absent : (∀ p ∈ pre ++ extra, p.isA .block = false) → f.OwnsBlock g := fun hno => by
    rw [hno b (by simp [← h])] at hb
    cases hb
  have cut : ∀ extra' {x}, extra = extra' ++ [x] → (∀ p ∈ extra', p.isA .block = false) → Extras extra' →
      f.OwnsBlock g := by
    intro extra' x hx hno he
    rw [hx, ← List.append_assoc] at h
    have hall := List.forall_mem_append.2 ⟨hpre, hno⟩
    obtain ⟨hfront, -, hback⟩ := cut_unique h hall nofun hb
    have formed : Formed Token.Sound g .plain (.node f.rule f.line f.front) :=
      .node (hfront ▸ content he) nofun parts
    refine ⟨hrule, formed.hasToken ?_ ?_, hfront ▸ hall, ?_⟩
    all_goals rcases rule with hr | hr
    all_goals simp only [Frame.Headed, hr, Tree.isA, Tree.rule?, reduceCtorEq, Option.some.injEq, decide_false]
    all_goals exact ⟨hback, hr ▸ formed⟩
  cases extras with
  | none => exact absent (by simpa using hpre)
  | output ho => exact absent (List.forall_mem_append.2 ⟨hpre, by simpa using Tree.isA_ne ho (by simp)⟩)
  | block _ => exact cut [] rfl nofun .none
  | @both o x ho _ => exact cut [o] rfl (by simpa using Tree.isA_ne ho (by simp)) (.output ho)

/-- A plain statement or branch has its block where it belongs. -/
theorem Frame.ownsBlock (h : Formed Token.Sound g .plain (f.around b))
    (hf : f.rule.isStatement = true ∨ f.rule.isBranch = true) (hb : b.isA .block = true) :
    f.OwnsBlock g := by
  obtain ⟨rule, line, front, back⟩ := f
  have value : ∀ {t : Tree}, t.fits .plain = true → t.isA .block = false := fun h => Tree.fits_isA h ⟨rfl, rfl⟩
  have node : ∀ {t : Tree}, t.fits .plain = true → t.isNode = true := fun h => by
    obtain ⟨_, _, _, rfl, -⟩ := Tree.fits_iff.1 h
    rfl
  have other : ∀ {t : Tree} {r : Rule}, t.isA r = true → r ≠ .block → t.isA .block = false :=
    fun h hr => Tree.isA_ne h hr
  cases h with
  | node content own parts =>
    dsimp only at content parts hf
    have hfront : ∀ p ∈ front, Formed Token.Sound g .plain p := fun p hp => parts p (by simp [hp])
    generalize hps : front ++ b :: back = ps at content parts
    have absent : (∀ p ∈ ps, p.isA .block = false) → Frame.OwnsBlock g ⟨rule, line, front, back⟩ := fun hno => by
      rw [hno b (by simp [← hps])] at hb
      cases hb
    cases content with
    | @serviceCall _ subject command given extra path named arguments extras =>
      refine extras.ownsBlock [subject, .token command, given] hps hb ?_ (.inl rfl)
        (fun he => .serviceCall path named arguments he) hfront
      simp [other path, other arguments]
    | mutation fits linked extras =>
      refine extras.ownsBlock [_, _] hps hb ?_ (.inr rfl)
        (fun he => .mutation fits linked he) hfront
      simp [value fits, other linked]
    | ifBlock fits block each =>
      refine .of_cut [.token _, _] hps hb (by simp [value fits]) ?_ (.inl rfl) rfl trivial
      exact fun p hp => (each p hp).elim (other · (by simp)) (other · (by simp))
    | elifBlock fits block =>
      exact .of_cut [.token _, .token _, _] hps hb (by simp [value fits]) nofun (.inl rfl) rfl trivial
    | elseBlock | finallyBlock | catchBlock =>
      exact .of_cut [.token _] hps hb (by simp) nofun (.inl rfl) rfl trivial
    | foreachBlock fits output block =>
      exact .of_cut [.token _, _, _] hps hb (by simp [value fits, other output]) nofun (.inl rfl) rfl
        (by simp [Frame.Headed, node fits])
    | whileBlock fits block =>
      exact .of_cut [.token _, _] hps hb (by simp [value fits]) nofun (.inl rfl) rfl
        (by simp [Frame.Headed, node fits])
    | tryBlock block each =>
      refine .of_cut [.token _] hps hb (by simp) ?_ (.inl rfl) rfl trivial
      exact fun p hp => (each p hp).elim (other · (by simp)) (other · (by simp))
    | catchAs output block =>
      exact .of_cut [.token _, _] hps hb (by simp [other output]) nofun (.inl rfl) rfl trivial
    | @functionBlock _ word name declared body named each block =>
      refine .of_cut (.token word :: .token name :: declared) hps hb ?_ nofun (.inl rfl) rfl
        ⟨name, by simp, named⟩
      simp only [List.forall_mem_cons]
      exact ⟨rfl, rfl, fun p hp => (each p hp).elim (other · (by simp)) (other · (by simp))⟩
    | @whenBlock _ word target event given body path arguments block =>
      have htarget := (parts target (by simp)).hasToken (other path (by simp)) (Tree.isA_ne path (by simp))
      exact .of_cut [.token word, target, .token event, given] hps hb
        (by simp [other path, other arguments]) nofun (.inl rfl) rfl
        (by simpa [Frame.Headed, List.find?_cons, path] using htarget)
    | @whenAs _ word target event given names body path arguments output block =>
      have htarget := (parts target (by simp)).hasToken (other path (by simp)) (Tree.isA_ne path (by simp))
      exact .of_cut [.token word, target, .token event, given, names] hps hb
        (by simp [other path, other arguments, other output]) nofun (.inl rfl) rfl
        (by simpa [Frame.Headed, List.find?_cons, path] using htarget)
    | assignment path fits =>
      refine absent ?_
      rcases fits with fits | call
      · simp [other path, value fits]
      · simp [other path, Tree.isStatement_isA (r := .block) (Tree.isStatement_of_isCall call) rfl]
    | functionCall named arguments => exact absent (by simp [other arguments])
    | expressionStatement fits | returnValue fits | throwValue fits | importFile fits =>
      exact absent (by simp [value fits])
    | returnAlone | throwAlone | breakOff | continueOn => exact absent (by simp)
    | _ => simp [Rule.isStatement, Rule.isBranch] at hf

/-- A part of a statement that is a branch is one of an `if` or a `try`. -/
theorem Content.branches {P : Token → Prop} {rule r : Rule} {ts : List Tree} {line : Option Coord}
    (h : Content P g .plain rule ps) (hb : Tree.node r line ts ∈ ps)
    (hr : r.isBranch = true) (hf : rule.isStatement = true) : rule.Branches r := by
  have value : (Tree.node r line ts).fits .plain = false := by
    cases r <;> simp [Rule.isBranch, Tree.fits, Tree.rule?, Rule.isValue] at hr ⊢
  have call : (Tree.node r line ts).isCall = false := by
    cases r <;> simp [Rule.isBranch, Tree.isCall, Tree.rule?, Rule.isCall] at hr ⊢
  have other : ∀ {t : Tree} {r' : Rule}, t.isA r' = true → r'.isBranch = false → Tree.node r line ts ≠ t := by
    rintro t r' ht hr' rfl
    obtain ⟨_, _, heq⟩ := Tree.isA_iff.1 ht
    cases heq
    rw [hr] at hr'
    cases hr'
  have valued : ∀ {t : Tree}, t.fits .plain = true → Tree.node r line ts ≠ t := by
    rintro t ht rfl
    rw [value] at ht
    cases ht
  cases h with
  | ifBlock fits block each =>
    simp only [List.mem_cons, reduceCtorEq, valued fits, other block rfl, false_or] at hb
    rcases each _ hb with hb | hb <;> obtain ⟨_, _, heq⟩ := Tree.isA_iff.1 hb <;> cases heq
    · exact .elifBlock
    · exact .elseBlock
  | tryBlock block each =>
    simp only [List.mem_cons, reduceCtorEq, other block rfl, false_or] at hb
    rcases each _ hb with hb | hb <;> obtain ⟨_, _, heq⟩ := Tree.isA_iff.1 hb <;> cases heq
    · exact .catchBlock
    · exact .finallyBlock
  | serviceCall path _ arguments extras =>
    simp only [List.mem_cons, reduceCtorEq, other path rfl, other arguments rfl, false_or] at hb
    exact absurd rfl ((extras.each _ hb).elim (other · rfl) (other · rfl))
  | mutation fits linked extras =>
    simp only [List.mem_cons, valued fits, other linked rfl, false_or] at hb
    exact absurd rfl ((extras.each _ hb).elim (other · rfl) (other · rfl))
  | functionBlock named each block =>
    simp only [List.mem_cons, List.mem_append, reduceCtorEq, List.not_mem_nil, or_false, false_or,
      List.cons_append, other block rfl] at hb
    exact absurd rfl ((each _ hb).elim (other · rfl) (other · rfl))
  | assignment path fits =>
    simp only [List.mem_cons, reduceCtorEq, other path rfl, false_or, List.not_mem_nil, or_false] at hb
    subst hb
    simp [value, call] at fits
  | functionCall _ arguments => simp [other arguments rfl] at hb
  | expressionStatement fits | returnValue fits | throwValue fits | importFile fits => simp [valued fits] at hb
  | foreachBlock fits output block => simp [valued fits, other output rfl, other block rfl] at hb
  | whileBlock fits block => simp [valued fits, other block rfl] at hb
  | whenBlock path arguments block =>
    simp [other path rfl, other arguments rfl, other block rfl] at hb
  | whenAs path arguments output block =>
    simp [other path rfl, other arguments rfl, other output rfl, other block rfl] at hb
  | returnAlone | throwAlone | breakOff | continueOn => simp at hb
  | _ => simp [Rule.isStatement] at hf

/-- A statement with a branch starts with something else. -/
theorem Content.start {P : Token → Prop} {s : Stage} {rule r : Rule} {line : Option Coord} {front back ts : List Tree}
    (h : Content P g s rule (front ++ .node r line ts :: back)) (hr : rule.Branches r) :
    (Tree.firstTokenOf? front).isSome = true := by
  generalize hps : front ++ .node r line ts :: back = ps at h
  -- such a statement starts with its keyword
  have word : ∃ u rest, ps = .token u :: rest := by
    cases hr <;> cases h <;> exact ⟨_, _, rfl⟩
  obtain ⟨u, rest, rfl⟩ := word
  cases front with
  | nil => simp at hps
  | cons p front =>
    obtain ⟨rfl, -⟩ := List.cons.inj hps
    rfl

/-- The blocks of a plain tree stand where they belong. -/
theorem Owner.stands {o : Owner} {ts : List Tree} (h : Formed Token.Sound g .plain (o.around ts))
    (hs : (o.around ts).isStatement = true) : o.Stands g := by
  obtain ⟨statement, branch, line, isBranch⟩ := o
  replace hs : statement.rule.isStatement = true := by simpa [around, Frame.around, Tree.isStatement, Tree.rule?] using hs
  cases branch with
  | none => exact ⟨hs, Frame.ownsBlock h (.inl hs) rfl⟩
  | some b =>
    have hb := isBranch b rfl
    cases h with
    | node content own parts =>
      have hrule := content.branches List.mem_append_cons_self hb hs
      exact ⟨hrule, content.start hrule, Frame.ownsBlock (parts _ List.mem_append_cons_self) (.inr hb) rfl⟩

/-- So they do on the whole way to a block. -/
theorem Hole.stands {h : Hole} {ts : List Tree}
    (hf : ∀ t ∈ h.fill ts, Formed Token.Sound g .plain t ∧ t.isStatement = true) : h.Stands g := by
  induction h with
  | here => trivial
  | inside before owner rest after ih =>
    have ho := hf (owner.around (rest.fill ts)) (by simp [fill])
    have hblock : Formed Token.Sound g .plain (owner.block (rest.fill ts)) := by
      obtain ⟨statement, branch, line, isBranch⟩ := owner
      cases ho.1 with
      | node _ _ parts =>
        have hpart := parts _ (List.mem_append_cons_self)
        cases branch with
        | none => exact hpart
        | some b =>
          cases hpart with
          | node _ _ parts => exact parts _ (List.mem_append_cons_self)
    refine ⟨Owner.stands ho.1 ho.2, ih ?_⟩
    cases hblock with
    | node content _ parts =>
      cases content with
      | block each => exact fun t ht => ⟨parts t ht, each t ht⟩

end StoryLang
