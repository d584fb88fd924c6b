/-
What is around a place in a story.

In the tree it can be seen from the rules of the nodes around the place, and in
the tokens from the layout in front of it: which blocks are open, and the words
that their headers start with. A phrase leaves open what was open before it.
-/
import StoryLang.Proofs.Tree.Reading.Statement

namespace StoryLang

/-! ## What is around -/

namespace Enclosing

variable {α : Type} (function loop : α → Bool)

/-- What is around a place, by the constructs around it, the innermost first. -/
def around (e : Enclosing) : List α → Enclosing
  | [] => e
  | x :: xs =>
    if function x then .function else if loop x then (around e xs).loop else around e xs

variable {function loop}

theorem around_append (e : Enclosing) (xs ys : List α) :
    e.around function loop (xs ++ ys) = (e.around function loop ys).around function loop xs := by
  induction xs with
  | nil => rfl
  | cons x xs ih => simp only [List.cons_append, around, ih]

theorem inFunction_around (xs : List α) :
    (story.around function loop xs).inFunction = true ↔ ∃ x ∈ xs, function x = true := by
  induction xs with
  | nil => simp [around, story]
  | cons x xs ih =>
    cases hf : function x <;> cases hl : loop x <;>
      simp [around, hf, hl, Enclosing.function, Enclosing.loop, ih]

theorem inLoop_around (xs : List α) :
    (story.around function loop xs).inLoop = true ↔
      ∃ x ∈ xs.takeWhile (!function ·), loop x = true := by
  induction xs with
  | nil => simp [around, story]
  | cons x xs ih =>
    cases hf : function x <;> cases hl : loop x <;>
      simp [around, hf, hl, Enclosing.function, Enclosing.loop, ih]

end Enclosing

/-! ## Around the nodes of a tree -/

theorem Rule.isLoop_iff {r : Rule} : r.isLoop = true ↔ r = .foreachBlock ∨ r = .whileBlock := by
  cases r <;> simp [isLoop]

/-- A part of a tree at any depth, with the rules of the nodes around it, the innermost first. -/
inductive Tree.Under : Tree → List Rule → Tree → Prop where
  | self (t : Tree) : Under t [] t
  | part {r l ps p around u} (mem : p ∈ ps) (under : Under p around u) :
    Under (.node r l ps) (around ++ [r]) u

/-- What is around a node, if it is in nodes of these rules. -/
def Enclosing.aroundNode (e : Enclosing) (rules : List Rule) : Enclosing :=
  e.around (fun r => decide (r = .functionBlock)) Rule.isLoop rules

/-- Whether a node of that rule can be there. -/
def Enclosing.allows (e : Enclosing) : Rule → Bool
  | .returnStatement => e.inFunction
  | .breakStatement | .continueStatement => e.inLoop
  | _ => true

namespace Tree

/-- With `e` around the tree, every jump in it sits in what it jumps out of. -/
def Placed (e : Enclosing) (t : Tree) : Prop :=
  ∀ rules u r, t.Under rules u → u.rule? = some r → (e.aroundNode rules).allows r = true

variable {e : Enclosing} {t : Tree}

theorem placed_token (u : Token) : (token u).Placed e := by
  rintro rules v r (_ | _) hr
  cases hr

theorem placed_node {r : Rule} {l : Option Coord} {ps : List Tree} :
    (node r l ps).Placed e ↔ e.allows r = true ∧ ∀ p ∈ ps, p.Placed (e.aroundNode [r]) := by
  constructor
  · intro h
    refine ⟨h [] _ r (.self _) rfl, fun p hp rules u r' hu hr' => ?_⟩
    have := h _ u r' (.part hp hu) hr'
    rwa [Enclosing.aroundNode, Enclosing.around_append] at this
  · rintro ⟨hr, hps⟩ rules u r' hu hr'
    cases hu with
    | self =>
      obtain rfl := Option.some.inj hr'
      exact hr
    | part mem under =>
      rw [Enclosing.aroundNode, Enclosing.around_append]
      exact hps _ mem _ u r' under hr'

theorem placed_of {i : Enclosing} {r : Rule} {ps : List Tree} (he : e.aroundNode [r] = i)
    (hr : e.allows r = true) (hps : ∀ p ∈ ps, p.Placed i) : (of r ps).Placed e :=
  placed_node.2 ⟨hr, by rwa [he]⟩

theorem placed_withPart {t part : Tree} (hr : t.isA .serviceCall = true) (ht : t.Placed e)
    (hpart : part.Placed e) : (Read.withPart t part).Placed e := by
  cases t with
  | token u => exact ht
  | node r line ps =>
    obtain rfl : r = .serviceCall := by simpa [isA, rule?] using hr
    refine placed_node.2 ⟨rfl, fun p hp => ?_⟩
    rcases List.mem_append.1 hp with hp | hp
    · exact (placed_node.1 ht).2 p hp
    · obtain rfl := List.mem_singleton.1 hp
      exact hpart

end Tree

/-- There is no jump in a value. -/
theorem Derives.placed {g : Grammar} {p : Phrase} {ts : List Token} {trees : List Tree}
    (h : Derives g p ts trees) :
    p.isFlat = true → ∀ e : Enclosing, ∀ t ∈ trees, t.Placed e := by
  induction h
  all_goals simp_all [Phrase.isFlat, Tree.placed_node, Tree.placed_token, Enclosing.allows,
    Enclosing.aroundNode, Enclosing.around, Rule.isLoop, or_imp, forall_and]

/-! ## Around the tokens of a story -/

/-- How far the layout of a story has come. -/
structure Layers where
  /-- The kinds of the tokens that the headers of the open blocks start with, the innermost first. -/
  opened : List TokenKind
  /-- The kind of the token that the last line starts with. -/
  header : TokenKind
  /-- Whether that line is over. -/
  fresh : Bool

namespace Layers

def start : Layers := ⟨[], .eof, true⟩

/-- A token further. -/
def step (l : Layers) (t : Token) : Layers :=
  match t.kind with
  | .newline => { l with fresh := true }
  | .indent => { l with opened := l.header :: l.opened, fresh := true }
  | .dedent => { l with opened := l.opened.tail, fresh := true }
  | kind => if l.fresh then { l with header := kind, fresh := false } else l

def after (l : Layers) (ts : List Token) : Layers := ts.foldl step l

@[simp] theorem after_nil (l : Layers) : l.after [] = l := rfl

@[simp] theorem after_cons (l : Layers) (t : Token) (ts : List Token) :
    l.after (t :: ts) = (l.step t).after ts := rfl

@[simp] theorem after_append (l : Layers) (ts us : List Token) :
    l.after (ts ++ us) = (l.after ts).after us :=
  List.foldl_append

theorem step_newline {l : Layers} {t : Token} (h : t.kind = .newline) :
    l.step t = { l with fresh := true } := by
  simp [step, h]

theorem step_indent {l : Layers} {t : Token} (h : t.kind = .indent) :
    l.step t = { l with opened := l.header :: l.opened, fresh := true } := by
  simp [step, h]

theorem step_dedent {l : Layers} {t : Token} (h : t.kind = .dedent) :
    l.step t = { l with opened := l.opened.tail, fresh := true } := by
  simp [step, h]

theorem step_first {l : Layers} {t : Token} (h : t.kind.isLayout = false) (hl : l.fresh = true) :
    l.step t = { l with header := t.kind, fresh := false } := by
  unfold step
  split <;> simp_all

theorem step_later {l : Layers} {t : Token} (h : t.kind.isLayout = false) (hl : l.fresh = false) :
    l.step t = l := by
  unfold step
  split <;> simp_all

/-- Within a line nothing is opened or closed. -/
theorem after_flat {l : Layers} {ts : List Token} (h : ∀ u ∈ ts, u.kind.isLayout = false)
    (hl : l.fresh = false) : l.after ts = l := by
  induction ts with
  | nil => rfl
  | cons t ts ih =>
    rw [after_cons, step_later (h t (by simp)) hl]
    exact ih fun u hu => h u (by simp [hu])

theorem opened_step {l : Layers} {t : Token} (h : t.kind.isLayout = false) :
    (l.step t).opened = l.opened := by
  cases hl : l.fresh
  · rw [step_later h hl]
  · rw [step_first h hl]

/-- Only the kinds of the tokens count. -/
theorem after_kinds {ts us : List Token} (h : ts.map Token.kind = us.map Token.kind) (l : Layers) :
    l.after ts = l.after us := by
  induction ts generalizing us l with
  | nil =>
    obtain rfl := List.map_eq_nil_iff.1 h.symm
    rfl
  | cons t ts ih =>
    obtain ⟨u, us, rfl, hk, hks⟩ := List.map_eq_cons_iff.1 h.symm
    rw [after_cons, after_cons, ih hks.symm, step, step, hk]

end Layers

/-- What is opened in a phrase is closed in it. -/
theorem Derives.opened {g : Grammar} (hg : g.KeepsLayout) {p : Phrase} {ts : List Token}
    {trees : List Tree} (h : Derives g p ts trees) : ∀ l : Layers, (l.after ts).opened = l.opened := by
  induction h
  case typeName word => simp [Layers.opened_step, word.isLayout]
  case typeParts word opens row closes ih =>
    simp [Layers.opened_step, word.isLayout, opens, closes, ih]
  case number kind => rcases kind with kind | kind <;> simp [Layers.opened_step, kind]
  case boolean kind => rcases kind with kind | kind <;> simp [Layers.opened_step, kind]
  case unary operator operand ih => simp [Layers.opened_step, hg.before operator, ih]
  case binary first operator second ih ih' =>
    simp [Layers.opened_step, hg.between operator, ih, ih']
  all_goals simp_all [Layers.opened_step, Layers.step_newline, Layers.step_indent, Layers.step_dedent]

/-- Phrases that go on to the end of a line. -/
def Phrase.endsLine : Phrase → Bool
  | .body | .block | .branches | .caught | .always | .statement | .statements => true
  | _ => false

/-- Those of them that may have no token at all. -/
def Phrase.isOptional : Phrase → Bool
  | .branches | .caught | .always | .statements => true
  | _ => false

theorem Derives.fresh {g : Grammar} {p : Phrase} {ts : List Token} {trees : List Tree}
    (h : Derives g p ts trees) : p.endsLine = true → ∀ l : Layers,
      p.isOptional = false ∨ l.fresh = true → (l.after ts).fresh = true := by
  induction h <;> intro hp l hl
  all_goals simp_all [Phrase.endsLine, Phrase.isOptional, Layers.step_newline, Layers.step_dedent]

/-- The kinds of the tokens that the headers of the open blocks start with, the innermost first. -/
def openBlocks (ts : List Token) : List TokenKind := (Layers.start.after ts).opened

/-- What is around the blocks with these headers. -/
def Enclosing.ofHeaders (headers : List TokenKind) : Enclosing :=
  story.around (fun k => decide (k = .keyword .functionWord))
    (fun k => decide (k = .keyword .foreachWord ∨ k = .keyword .whileWord)) headers

/-- The cursor is in front of some tokens of `all`, and `l` says what is behind it. -/
structure Cursor.Layered (all : List Token) (c : Cursor) (l : Layers) : Prop where
  ended : c.Ended
  behind : ∃ ts, all = ts ++ c.upcoming ∧ Layers.start.after ts = l

theorem Cursor.Layered.takes {all ts : List Token} {c c' : Cursor} {l : Layers}
    (h : c.Layered all l) (ht : c.Takes ts c') : c'.Layered all (l.after ts) := by
  obtain ⟨us, rfl, rfl⟩ := h.behind
  exact ⟨ht.ended, us ++ ts, by rw [ht.upcoming, List.append_assoc], by simp⟩

theorem Cursor.Layered.first {all : List Token} {c : Cursor} {l : Layers} (h : c.Layered all l)
    (hl : l.fresh = true) (hk : c.current.kind.isLayout = false) :
    c.next.Layered all { l with header := c.current.kind, fresh := false } := by
  have h' := h.takes (h.ended.takes_next fun he => by simp [he] at hk)
  rwa [Layers.after_cons, Layers.after_nil, Layers.step_first hk hl] at h'

theorem Cursor.Layered.later {all : List Token} {c : Cursor} {l : Layers} (h : c.Layered all l)
    (hl : l.fresh = false) (hk : c.current.kind.isLayout = false) : c.next.Layered all l := by
  have h' := h.takes (h.ended.takes_next fun he => by simp [he] at hk)
  rwa [Layers.after_cons, Layers.after_nil, Layers.step_later hk hl] at h'

end StoryLang
