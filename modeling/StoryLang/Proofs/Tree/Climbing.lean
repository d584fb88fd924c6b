/-
Reading an operator expression gives its grouped tree.

At each token of a row the reader does what a grouped tree of the row says:
it takes an operator into the operand it is at exactly if the tree has it
there. So a row has only one grouped tree, and the reader returns it, unless
it meets an operator behind another one that allows no row of its precedence,
or a type that may not be named.
-/
import Mathlib.Logic.Function.Iterate
import StoryLang.Proofs.Tree.Precedence
import StoryLang.Proofs.Tree.Reading.Statement

namespace StoryLang

/-! ## Where reading stops -/

/-- A place where a row cannot be read on: how many of its tokens have been
read, and what should come next. -/
structure Stop where
  read : Nat
  expected : List TokenKind
  deriving DecidableEq

/-- The place, behind some more tokens. -/
def Stop.behind (n : Nat) (s : Stop) : Stop := { s with read := n + s.read }

namespace OperatorTree

/-- Whether the tree ends in an operator that must not be followed by one of a kind. -/
def clashes (g : Grammar) (k : TokenKind) : OperatorTree → Bool
  | between _ sign _ => g.clash sign.kind k
  | _ => false

/-- The first place where reading stops: an operator whose left operand allows
none of its precedence behind it, or a reserved word for a type. -/
def stop? (g : Grammar) : OperatorTree → Option Stop
  | operand _ => none
  | before _ x => (x.stop? g).map (.behind 1)
  | between left sign right =>
    (left.stop? g).or <|
      (if left.clashes g sign.kind then some ⟨left.reading.length, [.newline]⟩ else none).or <|
        (right.stop? g).map (.behind (left.reading.length + 1))
  | cast x _ type =>
    (x.stop? g).or <|
      if type.kind = .name && g.isReserved type.literal then some ⟨x.reading.length + 1, [.name]⟩
      else none

/-- The same if a token of a kind follows the tree. -/
def stopBefore? (g : Grammar) (k : TokenKind) (e : OperatorTree) : Option Stop :=
  (e.stop? g).or (if e.clashes g k then some ⟨e.reading.length, [.newline]⟩ else none)

end OperatorTree

namespace Cursor

/-- Behind the next `n` tokens. -/
def skip (c : Cursor) (n : Nat) : Cursor := next^[n] c

@[simp] theorem skip_zero (c : Cursor) : c.skip 0 = c := rfl

theorem skip_add (c : Cursor) (m n : Nat) : c.skip (m + n) = (c.skip m).skip n := by
  rw [skip, Nat.add_comm, Function.iterate_add_apply]
  rfl

theorem skip_next (c : Cursor) (n : Nat) : (c.skip n).next = c.skip (n + 1) :=
  (Function.iterate_succ_apply' next n c).symm

theorem next_skip (c : Cursor) (n : Nat) : c.next.skip n = c.skip (n + 1) :=
  (Function.iterate_succ_apply next n c).symm

/-- What comes from the cursor on, at least one token of which is known. -/
theorem upcoming_next {c : Cursor} {t : Token} {ts : List Token} (h : c.upcoming = t :: ts)
    (hts : ts ≠ []) : c.next.upcoming = ts := by
  obtain ⟨-, h⟩ := List.cons.inj h
  unfold next
  split
  · rename_i ha
    exact absurd (ha.symm.trans h) hts.symm
  · rename_i ha
    exact ha.symm.trans h

theorem upcoming_skip {us : List Token} : ∀ {ts : List Token} {c : Cursor},
    c.upcoming = ts ++ us → us ≠ [] → (c.skip ts.length).upcoming = us
  | [], c, h, _ => h
  | t :: ts, c, h, hus => by
    rw [List.length_cons, ← next_skip]
    exact upcoming_skip (upcoming_next h (by simp [hus])) hus

theorem current_of_upcoming {c : Cursor} {t : Token} {ts : List Token}
    (h : c.upcoming = t :: ts) : c.current = t :=
  (List.cons.inj h).1

theorem ahead_of_upcoming {c : Cursor} {t : Token} {ts : List Token} (h : c.upcoming = t :: ts) :
    c.ahead = ts :=
  (List.cons.inj h).2

end Cursor

/-! ## Operators -/

/-- The tokens that operators are written with, save keywords that are no words for logic. -/
def TokenKind.isSign : TokenKind → Bool
  | .symbol s => Symbol.operators.contains s
  | .keyword .andWord | .keyword .orWord | .keyword .notWord => true
  | _ => false

/-- All operators are symbols or words for logic. -/
def Grammar.HasSigns (g : Grammar) : Prop :=
  ∀ k : TokenKind, (g.operators.between? k).isSome ∨ (g.operators.before? k).isSome →
    k.isSign = true

namespace Read

variable {g : Grammar} {c : Cursor} {value : Nat → Read Tree} {n min : Nat}

/-- Whether a cast comes. -/
def atCast (g : Grammar) (c : Cursor) : Bool :=
  let type := c.ahead.headD c.current
  c.current.kind = .keyword .asWord && g.namesType type

/-- Nothing at the cursor binds tighter than `q`. -/
def Blocked (g : Grammar) (q : Nat) (c : Cursor) : Prop :=
  (atCast g c = true → g.castPrecedence ≤ q) ∧ g.binding c.current.kind ≤ q

theorem isAtCast_eq : isAtCast g c = .ok (atCast g c, c) := by
  simp [isAtCast_apply, atCast, Grammar.namesType]

theorem climb_blocked {left : Tree} (h : Blocked g min c) :
    climb g value min (n + 1) left c = .ok (left, c) := by
  have hcast : (atCast g c && decide (min < g.castPrecedence)) = false := by
    have := h.1
    cases hb : atCast g c
    · rfl
    · simp [hb] at this ⊢
      omega
  have hb := h.2
  unfold climb
  simp only [bind_apply, isAtCast_eq, hcast, Bool.false_eq_true, if_false, kind_apply]
  cases ho : g.operators.between? c.current.kind with
  | none => rfl
  | some o =>
    have : o.precedence ≤ min := by simpa [Grammar.binding, ho] using hb
    simp [this, pure_apply]

theorem climb_cast {left : Tree} (h : atCast g c = true) (hmin : min < g.castPrecedence) :
    climb g value min (n + 1) left c =
      (types g n >>= fun type =>
        climb g value min n (.of .cast [left, .token c.current, type])) c.next := by
  rw [climb]
  simp only [bind_apply, isAtCast_eq, h, hmin, decide_true, Bool.and_self, if_true, leaf_apply]

theorem climb_between {left : Tree} {o : Operator} (h : atCast g c = false)
    (ho : g.operators.between? c.current.kind = some o) (hmin : min < o.precedence) :
    climb g value min (n + 1) left c =
      (value o.rightPrecedence >>= fun right c' =>
        if g.clash c.current.kind c'.current.kind then unexpected g [.newline] c'
        else climb g value min n (.of .binaryExpression [left, .token c.current, right]) c')
        c.next := by
  have hle : ¬ o.precedence ≤ min := by omega
  rw [climb]
  simp only [bind_apply, isAtCast_eq, h, Bool.false_and, Bool.false_eq_true, if_false,
    kind_apply, ho, hle, leaf_apply]
  split
  · rename_i right c' hv
    simp only [Grammar.clash, ho, Option.any_some]
    split <;> rfl
  · rfl

/-! ## Operands and types -/

/-- The kinds of tokens that do not go on with a name. -/
def EndsName (k : TokenKind) : Prop :=
  k ≠ .symbol .leftParen ∧ k ≠ .symbol .leftBracket ∧ k ≠ .symbol .dot

theorem endsName_of_isSign {k : TokenKind} (h : k.isSign = true) : EndsName k := by
  refine ⟨?_, ?_, ?_⟩ <;> rintro rfl <;> simp [TokenKind.isSign, Symbol.operators] at h

theorem operand_simple {t f : Token} {after : List Token} (h : g.isOperand t = true)
    (hc : c.upcoming = t :: f :: after) (hf : EndsName f.kind) :
    operand g value (n + 1) c = .ok (OperatorTree.operandNode t, c.next) := by
  obtain rfl := Cursor.current_of_upcoming hc
  have hnext := Cursor.current_of_upcoming (Cursor.upcoming_next hc (by simp))
  have hahead := Cursor.ahead_of_upcoming hc
  unfold Grammar.isOperand at h
  split at h <;> rename_i hk
  · have hp : path g value (n + 1) c = .ok (.of .path [.token c.current], c.next) := by
      simp only [path, bind_apply, expectName, isAtName_apply, hk, decide_true, h, Bool.and_self, if_true,
        leaf_apply, fragments, isAt_apply, hnext, hf.2.1, hf.2.2, decide_false, Bool.false_eq_true, if_false,
        pure_apply]
    simp only [operand, bind_apply, kind_apply, hk, isBefore_apply, hahead, List.headD_cons, hf.1, decide_false,
      Bool.false_eq_true, if_false, hp, OperatorTree.operandNode]
  case h_8 => cases h
  all_goals simp only [operand, bind_apply, kind_apply, hk, literal, leaf_apply, pure_apply,
    OperatorTree.operandNode]

theorem operand_sign (h : c.current.kind.isSign = true) :
    operand g value n c = prefixed g value c := by
  unfold operand
  simp only [bind_apply, kind_apply]
  generalize c.current.kind = k at h
  cases k with
  | symbol s => cases s <;> first | rfl | simp [TokenKind.isSign, Symbol.operators] at h
  | keyword k => cases k <;> first | rfl | cases h
  | _ => cases h

theorem prefixed_some {o : Operator} (h : g.operators.before? c.current.kind = some o) :
    prefixed g value c =
      (value o.precedence >>= fun x => pure (.of .unaryExpression [.token c.current, x]))
        c.next := by
  unfold prefixed
  simp only [bind_apply, kind_apply, h, leaf_apply]

theorem types_word {t f : Token} {after : List Token} (h : g.namesType t = true)
    (hc : c.upcoming = t :: f :: after) (hf : EndsName f.kind) :
    types g (n + 1) c =
      if t.kind = .name && g.isReserved t.literal then unexpected g [.name] c
      else .ok (.of .types [.token t], c.next) := by
  obtain rfl := Cursor.current_of_upcoming hc
  have hnext := Cursor.current_of_upcoming (Cursor.upcoming_next hc (by simp))
  have hword : c.current.kind = .keyword .functionWord ∨ c.current.kind = .name := by
    simp only [Grammar.namesType, Bool.or_eq_true, Bool.and_eq_true, decide_eq_true_eq] at h
    exact h.imp_right (·.1)
  have hb := hf.2.1
  rcases hword with hk | hk <;> cases hr : g.isReserved c.current.literal <;>
    simp [types, bind_apply, isAt_apply, isAtName_apply, leaf_apply, unexpected_apply, pure_apply, *]

/-! ## Following a tree -/

theorem between?_asWord (hs : g.HasSigns) : g.operators.between? (.keyword .asWord) = none := by
  cases h : g.operators.between? (.keyword .asWord) with
  | none => rfl
  | some o => exact absurd (hs (.keyword .asWord) (.inl (by simp [h]))) (by decide)

/-- An operator does not clash with what binds less tightly. -/
theorem clashes_eq_false {e : OperatorTree} {k : TokenKind} {q : Nat} (hk : g.binding k ≤ q)
    (he : ∀ p ∈ e.leftEdge g, q < p) : e.clashes g k = false := by
  cases e with
  | between left sign right =>
    have hq : q < g.binding sign.kind := he _ (by simp [OperatorTree.leftEdge])
    simp only [OperatorTree.clashes, Grammar.clash]
    cases ho : g.operators.between? sign.kind with
    | none => rfl
    | some o =>
      cases ho' : g.operators.between? k with
      | none => simp
      | some o' =>
        simp only [Grammar.binding, ho, ho', Option.map_some, Option.getD_some] at hk hq
        have : o'.precedence ≠ o.precedence := by omega
        simp [this]
  | _ => rfl

theorem length_leftEdge_lt (g : Grammar) (e : OperatorTree) :
    (e.leftEdge g).length < e.reading.length := by
  induction e with
  | operand t => simp [OperatorTree.leftEdge, OperatorTree.reading]
  | before sign x _ => simp [OperatorTree.leftEdge, OperatorTree.reading]
  | between left sign right ih _ =>
    simp only [OperatorTree.leftEdge, OperatorTree.reading, List.length_cons, List.length_append]
    omega
  | cast x word type ih =>
    simp only [OperatorTree.leftEdge, OperatorTree.reading, List.length_cons, List.length_append]
    omega

/-- In front of the tokens of the tree a value is read up to the end of the
tree, or to the place where reading stops. What follows the tree must not
belong to one of its operands, and is then looked at by the same loop. -/
def Follows (g : Grammar) (e : OperatorTree) : Prop :=
  ∀ {min n : Nat} {c : Cursor} {f : Token} {after : List Token},
    c.upcoming = e.reading ++ f :: after → EndsName f.kind → (∀ p ∈ e.leftEdge g, min < p) →
    (∀ q ∈ e.rightEdge g, Blocked g q (c.skip e.reading.length)) → e.reading.length ≤ n →
    expression g (n + 1) min c = match e.stopBefore? g f.kind with
      | some s => unexpected g s.expected (c.skip s.read)
      | none => climb g (expression g n) min (n - (e.leftEdge g).length) e.toTree
          (c.skip e.reading.length)

/-- What comes behind the tree cannot be taken: the tree is all that is read. -/
theorem Follows.whole {e : OperatorTree} (h : Follows g e) {f : Token} {after : List Token}
    (hc : c.upcoming = e.reading ++ f :: after) (hf : EndsName f.kind)
    (hl : ∀ p ∈ e.leftEdge g, min < p)
    (hr : ∀ q ∈ e.rightEdge g, Blocked g q (c.skip e.reading.length))
    (hblocked : Blocked g min (c.skip e.reading.length)) (hn : e.reading.length ≤ n) :
    expression g (n + 1) min c = match e.stop? g with
      | some s => unexpected g s.expected (c.skip s.read)
      | none => .ok (e.toTree, c.skip e.reading.length) := by
  have hend := Cursor.current_of_upcoming (Cursor.upcoming_skip hc (by simp))
  have hclash : e.clashes g f.kind = false := clashes_eq_false (hend ▸ hblocked.2) hl
  have hlt := length_leftEdge_lt g e
  obtain ⟨k, hk⟩ : ∃ k, n - (e.leftEdge g).length = k + 1 :=
    Nat.exists_eq_succ_of_ne_zero (by omega)
  rw [h hc hf hl hr hn, hk, climb_blocked hblocked]
  simp [OperatorTree.stopBefore?, hclash]

theorem follows_operand {t : Token} (ht : g.isOperand t = true) : Follows g (.operand t) := by
  intro min n c f after hc hf _ _ hn
  obtain ⟨n, rfl⟩ : ∃ k, n = k + 1 := Nat.exists_eq_succ_of_ne_zero (by
    simp only [OperatorTree.reading, List.length_singleton] at hn
    omega)
  rw [expression, bind_apply, operand_simple ht hc hf]
  rfl

theorem follows_before (hs : g.HasSigns) {sign : Token} {x : OperatorTree}
    (hsign : (g.operators.before? sign.kind).isSome)
    (hx : ∀ p ∈ x.leftEdge g, g.bindingBefore sign.kind < p) (h : Follows g x) :
    Follows g (.before sign x) := by
  intro min n c f after hc hf hl hr hn
  simp only [OperatorTree.reading, List.length_cons] at hn hr ⊢
  obtain ⟨n, rfl⟩ : ∃ k, n = k + 1 := Nat.exists_eq_succ_of_ne_zero (by omega)
  obtain rfl := Cursor.current_of_upcoming hc
  obtain ⟨o, ho⟩ := Option.isSome_iff_exists.1 hsign
  have hp : g.bindingBefore c.current.kind = o.precedence := by simp [Grammar.bindingBefore, ho]
  have hnext : c.next.upcoming = x.reading ++ f :: after := Cursor.upcoming_next hc (by simp)
  rw [← Cursor.next_skip] at hr ⊢
  have hwhole := h.whole (n := n) hnext hf (hp ▸ hx)
    (fun q hq => hr q (by simp [OperatorTree.rightEdge, hq]))
    (hr _ (by simp [OperatorTree.rightEdge, hp])) (by omega)
  rw [expression, bind_apply, operand_sign (hs _ (.inr hsign)), prefixed_some ho, bind_apply,
    hwhole]
  simp only [OperatorTree.stopBefore?, OperatorTree.stop?, OperatorTree.clashes]
  cases x.stop? g with
  | some s => simp [Stop.behind, Nat.add_comm 1, ← Cursor.next_skip, unexpected_apply]
  | none => rfl

theorem stopBefore?_between (left : OperatorTree) (sign : Token) (right : OperatorTree)
    (k : TokenKind) : (OperatorTree.between left sign right).stopBefore? g k =
      (left.stopBefore? g sign.kind).or
        (((right.stop? g).map (.behind (left.reading.length + 1))).or
          (if g.clash sign.kind k then
            some ⟨left.reading.length + (right.reading.length + 1), [.newline]⟩ else none)) := by
  simp [OperatorTree.stopBefore?, OperatorTree.stop?, OperatorTree.clashes, OperatorTree.reading,
    Option.or_assoc]

theorem follows_between (hs : g.HasSigns) {left : OperatorTree} {sign : Token}
    {right : OperatorTree} (hsign : (g.operators.between? sign.kind).isSome)
    (hright : ∀ p ∈ right.leftEdge g, g.bindingRight sign.kind < p)
    (hleft : ∀ q ∈ left.rightEdge g, g.binding sign.kind ≤ q) (h : Follows g left)
    (h' : Follows g right) : Follows g (.between left sign right) := by
  intro min n c f after hc hf hl hr hn
  simp only [OperatorTree.reading, OperatorTree.leftEdge, OperatorTree.rightEdge,
    List.length_append, List.length_cons, List.append_assoc, List.cons_append,
    List.forall_mem_cons] at hc hl hr hn ⊢
  obtain ⟨o, ho⟩ := Option.isSome_iff_exists.1 hsign
  have hp : g.binding sign.kind = o.precedence := by simp [Grammar.binding, ho]
  have hq : g.bindingRight sign.kind = o.rightPrecedence := by simp [Grammar.bindingRight, ho]
  have hk : sign.kind.isSign = true := hs _ (.inl hsign)
  -- at the operator
  have hat : (c.skip left.reading.length).upcoming = sign :: (right.reading ++ f :: after) :=
    Cursor.upcoming_skip hc (by simp)
  have hcur := Cursor.current_of_upcoming hat
  have hcast : atCast g (c.skip left.reading.length) = false := by
    have : sign.kind ≠ .keyword .asWord := by
      rintro he
      simp [he, TokenKind.isSign] at hk
    simp [atCast, hcur, this]
  have hfirst := h (n := n) hc (endsName_of_isSign hk) hl.2
    (fun q hq => ⟨by simp [hcast], hcur ▸ hleft q hq⟩) (by omega)
  have hlt := length_leftEdge_lt g left
  obtain ⟨k, hfuel⟩ : ∃ k, n - (left.leftEdge g).length = k + 1 :=
    Nat.exists_eq_succ_of_ne_zero (by omega)
  have hrest : n - ((left.leftEdge g).length + 1) = k := by omega
  obtain ⟨n, rfl⟩ : ∃ k, n = k + 1 := Nat.exists_eq_succ_of_ne_zero (by omega)
  -- at the right operand
  have hnext := Cursor.upcoming_next hat (by simp)
  have hskip : (c.skip left.reading.length).next.skip right.reading.length =
      c.skip (left.reading.length + (right.reading.length + 1)) := by
    rw [Cursor.next_skip, ← Cursor.skip_add]
  rw [← hskip] at hr ⊢
  have hend := Cursor.current_of_upcoming (Cursor.upcoming_skip hnext (by simp))
  have hsecond := h'.whole hnext hf (hq ▸ hright) hr.2 (hq ▸ hr.1)
    (by omega : right.reading.length ≤ n)
  have hmin : min < o.precedence := hp ▸ hl.1
  have hstep := @climb_between g _ (expression g (n + 1)) k min left.toTree o hcast
    (by rw [hcur, ho]) hmin
  rw [hfirst, stopBefore?_between]
  cases left.stopBefore? g sign.kind with
  | some s => rfl
  | none =>
    simp only [Option.none_or, hfuel, hrest, hstep, bind_apply, hsecond, hcur]
    cases right.stop? g with
    | some s =>
      simp only [Option.map_some, Option.some_or, Stop.behind, unexpected_apply, Cursor.next_skip,
        ← Cursor.skip_add]
      rw [show left.reading.length + (s.read + 1) = left.reading.length + 1 + s.read by omega]
    | none =>
      simp only [Option.map_none, Option.none_or, hend]
      split
      · simp only [hskip]
      · rfl

theorem follows_cast (hs : g.HasSigns) {x : OperatorTree} {word type : Token}
    (hword : word.kind = .keyword .asWord) (htype : g.namesType type = true)
    (hx : ∀ q ∈ x.rightEdge g, g.castPrecedence ≤ q) (h : Follows g x) :
    Follows g (.cast x word type) := by
  intro min n c f after hc hf hl hr hn
  simp only [OperatorTree.reading, OperatorTree.leftEdge, List.length_append, List.length_cons,
    List.length_nil, List.append_assoc, List.cons_append, List.nil_append,
    List.forall_mem_cons] at hc hl hn ⊢
  have hnone : g.operators.between? word.kind = none := hword ▸ between?_asWord hs
  -- at the `as`
  have hat : (c.skip x.reading.length).upcoming = word :: type :: f :: after :=
    Cursor.upcoming_skip hc (by simp)
  have hcur := Cursor.current_of_upcoming hat
  have hcast : atCast g (c.skip x.reading.length) = true := by
    simp [atCast, hcur, hword, Cursor.ahead_of_upcoming hat, htype]
  have hfirst := h (n := n) hc ⟨by simp [hword], by simp [hword], by simp [hword]⟩ hl.2
    (fun q hq => ⟨fun _ => hx q hq, by simp [hcur, Grammar.binding, hnone]⟩) (by omega)
  have hlt := length_leftEdge_lt g x
  obtain ⟨k, hfuel⟩ : ∃ k, n - (x.leftEdge g).length = k + 1 + 1 :=
    ⟨n - (x.leftEdge g).length - 2, by omega⟩
  have hrest : n - ((x.leftEdge g).length + 1) = k + 1 := by omega
  -- at the type
  have hnext := Cursor.upcoming_next hat (by simp)
  have hclash : x.clashes g word.kind = false := by
    cases x <;> simp [OperatorTree.clashes, Grammar.clash, hnone]
  rw [hfirst]
  simp only [OperatorTree.stopBefore?, OperatorTree.stop?, hclash, Bool.false_eq_true, if_false,
    Option.or_none]
  cases x.stop? g with
  | some s => rfl
  | none =>
    simp only [Option.none_or, hfuel, hrest, climb_cast hcast hl.1, bind_apply,
      types_word htype hnext hf, hcur]
    by_cases hreserved : (decide (type.kind = .name) && g.isReserved type.literal) = true
    · simp only [hreserved, if_true, Option.some_or, unexpected_apply, Cursor.skip_next]
    · simp only [hreserved, Bool.false_eq_true, if_false, Option.none_or, OperatorTree.clashes,
        Cursor.skip_next]
      rfl

/-- A grouped tree of declared parts is followed. -/
theorem follows (hs : g.HasSigns) : ∀ {e : OperatorTree}, e.Declared g → e.Grouped g → Follows g e
  | .operand _, hd, _ => follows_operand hd
  | .before _ _, hd, hg => follows_before hs hd.1 hg.2 (follows hs hd.2 hg.1)
  | .between _ _ _, hd, hg => follows_between hs hd.2.1 hg.2.2.1 hg.2.2.2
      (follows hs hd.1 hg.1) (follows hs hd.2.2 hg.2.1)
  | .cast _ _ _, hd, hg => follows_cast hs hd.2.1 hd.2.2 hg.2 (follows hs hd.1 hg.1)

/-- Nothing goes on with a value over the end of its line. -/
theorem blocked_newline (hs : g.HasSigns) (hc : c.current.kind = .newline) (q : Nat) :
    Blocked g q c := by
  refine ⟨by simp [atCast, hc], ?_⟩
  cases h : g.operators.between? c.current.kind with
  | none => simp [Grammar.binding, h]
  | some o =>
    have hsign := hs c.current.kind (.inl (by simp [h]))
    simp [hc, TokenKind.isSign] at hsign

theorem endsName_newline : EndsName .newline := by
  simp [EndsName]

end Read

/-- Every operator binds, and so do casts. -/
def Grammar.Binds (g : Grammar) : Prop :=
  1 ≤ g.castPrecedence ∧ ∀ k o, g.operators.between? k = some o → 1 ≤ o.precedence

theorem OperatorTree.leftEdge_pos {g : Grammar} (hb : g.Binds) : ∀ {e : OperatorTree},
    e.Declared g → ∀ p ∈ e.leftEdge g, 0 < p
  | .operand _, _ => by simp [leftEdge]
  | .before _ _, _ => by simp [leftEdge]
  | .between left sign right, hd => by
    obtain ⟨o, ho⟩ := Option.isSome_iff_exists.1 hd.2.1
    have hp : 0 < g.binding sign.kind := by
      simpa [Grammar.binding, ho] using Nat.lt_of_succ_le (hb.2 _ _ ho)
    exact List.forall_mem_cons.2 ⟨hp, leftEdge_pos hb hd.1⟩
  | .cast x word type, hd => List.forall_mem_cons.2 ⟨hb.1, leftEdge_pos hb hd.1⟩

namespace Read

variable {g : Grammar} {c : Cursor} {n : Nat}

/-- A row at the end of its line is read as its grouped tree, or up to where reading stops. -/
theorem expression_spells (hs : g.HasSigns) (hb : g.Binds) {ts rest : List Token} {lineEnd : Token}
    {e : OperatorTree} (he : OperatorTree.Spells g ts e) (hk : lineEnd.kind = .newline)
    (hc : c.upcoming = ts ++ lineEnd :: rest) (hn : ts.length < n) :
    expression g n 0 c = match e.stop? g with
      | some s => unexpected g s.expected (c.skip s.read)
      | none => .ok (e.toTree, c.skip ts.length) := by
  obtain ⟨rfl, hd, hg⟩ := he
  obtain ⟨n, rfl⟩ : ∃ k, n = k + 1 := Nat.exists_eq_succ_of_ne_zero (by omega)
  have hend := Cursor.current_of_upcoming (Cursor.upcoming_skip hc (by simp))
  have hblocked := blocked_newline (c := c.skip e.reading.length) hs (by rw [hend, hk])
  have hf : Follows g e := follows hs hd hg
  exact hf.whole hc (hk ▸ endsName_newline) (e.leftEdge_pos hb hd)
    (fun q _ => hblocked q) (hblocked 0) (by omega)

end Read

/-! ## There is one grouped tree -/

/-- The operator, allowing rows of its precedence. -/
def Operator.lenient (o : Operator) : Operator :=
  { o with grouping := if o.grouping = .none then .left else o.grouping }

/-- The grammar without what stops reading in a row: it allows rows of every
precedence, and it has no reserved words. -/
def Grammar.lenient (g : Grammar) : Grammar :=
  { g with
    operators := { g.operators with between := g.operators.between.map Operator.lenient }
    reserved := [] }

namespace Grammar

variable {g : Grammar}

theorem between?_lenient (k : TokenKind) :
    g.lenient.operators.between? k = (g.operators.between? k).map Operator.lenient := by
  simp only [lenient, OperatorTable.between?, List.find?_map, Function.comp_def]
  rfl

theorem binding_lenient (k : TokenKind) : g.lenient.binding k = g.binding k := by
  simp only [binding, between?_lenient, Option.map_map]
  rfl

theorem rightPrecedence_lenient (o : Operator) : o.lenient.rightPrecedence = o.rightPrecedence := by
  obtain ⟨k, p, grouping⟩ := o
  cases grouping <;> rfl

theorem bindingRight_lenient (k : TokenKind) : g.lenient.bindingRight k = g.bindingRight k := by
  simp only [bindingRight, between?_lenient, Option.map_map, Function.comp_def,
    rightPrecedence_lenient]

theorem clash_lenient (k k' : TokenKind) : g.lenient.clash k k' = false := by
  rw [clash, between?_lenient k, Option.any_map]
  cases g.operators.between? k with
  | none => rfl
  | some o =>
    obtain ⟨k, p, grouping⟩ := o
    cases grouping <;> rfl

theorem HasSigns.lenient (h : g.HasSigns) : g.lenient.HasSigns := by
  intro k hk
  refine h k (hk.imp_left fun hb => ?_)
  simpa [between?_lenient] using hb

theorem Binds.lenient (h : g.Binds) : g.lenient.Binds := by
  refine ⟨h.1, fun k o ho => ?_⟩
  rw [between?_lenient] at ho
  obtain ⟨o', ho', rfl⟩ := Option.map_eq_some_iff.1 ho
  exact h.2 k o' ho'

end Grammar

namespace OperatorTree

variable {g : Grammar}

theorem declared_lenient : ∀ {e : OperatorTree}, e.Declared g → e.Declared g.lenient
  | operand t, h => by
    simp only [Declared, Grammar.isOperand] at h ⊢
    split at h <;> simp_all [Grammar.isReserved, Grammar.lenient]
  | before _ _, h => ⟨h.1, declared_lenient h.2⟩
  | between _ _ _, h =>
    ⟨declared_lenient h.1, by simpa [Grammar.between?_lenient] using h.2.1, declared_lenient h.2.2⟩
  | cast _ _ _, h => ⟨declared_lenient h.1, h.2⟩

theorem leftEdge_lenient (e : OperatorTree) : e.leftEdge g.lenient = e.leftEdge g := by
  induction e with
  | between left sign right ih _ => simp only [leftEdge, ih, Grammar.binding_lenient]
  | cast x word type ih =>
    simp only [leftEdge, ih]
    rfl
  | _ => rfl

theorem rightEdge_lenient (e : OperatorTree) : e.rightEdge g.lenient = e.rightEdge g := by
  induction e with
  | between left sign right _ ih => simp only [rightEdge, ih, Grammar.bindingRight_lenient]
  | before sign x ih =>
    simp only [rightEdge, ih]
    rfl
  | _ => rfl

theorem grouped_lenient : ∀ {e : OperatorTree}, e.Grouped g → e.Grouped g.lenient
  | operand _, _ => trivial
  | before sign x, h => ⟨grouped_lenient h.1, by rw [leftEdge_lenient]; exact h.2⟩
  | between left sign right, h => by
    refine ⟨grouped_lenient h.1, grouped_lenient h.2.1, ?_, ?_⟩
    · rw [leftEdge_lenient, Grammar.bindingRight_lenient]
      exact h.2.2.1
    · rw [rightEdge_lenient, Grammar.binding_lenient]
      exact h.2.2.2
  | cast x word type, h => ⟨grouped_lenient h.1, by rw [rightEdge_lenient]; exact h.2⟩

theorem Spells.lenient {ts : List Token} {e : OperatorTree} (h : Spells g ts e) :
    Spells g.lenient ts e :=
  ⟨h.reading, declared_lenient h.declared, grouped_lenient h.grouped⟩

theorem clashes_lenient (e : OperatorTree) (k : TokenKind) : e.clashes g.lenient k = false := by
  cases e with
  | between left sign right => exact Grammar.clash_lenient sign.kind k
  | _ => rfl

/-- Nothing stops reading under the lenient grammar. -/
theorem stop?_lenient (e : OperatorTree) : e.stop? g.lenient = none := by
  induction e with
  | operand t => rfl
  | before sign x ih => simp [stop?, ih]
  | between left sign right ih ih' => simp [stop?, ih, ih', clashes_lenient]
  | cast x word type ih =>
    have hfree : g.lenient.isReserved type.literal = false := rfl
    simp [stop?, ih, hfree]

/-- A row has at most one grouped tree: the lenient grammar reads any of them. -/
theorem Spells.unique (hs : g.HasSigns) (hb : g.Binds) {ts : List Token} {e e' : OperatorTree}
    (h : Spells g ts e) (h' : Spells g ts e') : e = e' := by
  let lineEnd : Token := ⟨.newline, "", .first⟩
  let c : Cursor := .start (ts ++ [lineEnd])
  have hc : c.upcoming = ts ++ lineEnd :: Cursor.missingEnd (ts ++ [lineEnd]) := by
    simpa using Cursor.upcoming_start (ts ++ [lineEnd])
  have hread := Read.expression_spells hs.lenient hb.lenient h.lenient rfl hc (Nat.lt_succ_self _)
  have hread' := Read.expression_spells hs.lenient hb.lenient h'.lenient rfl hc (Nat.lt_succ_self _)
  simp only [stop?_lenient] at hread hread'
  rw [hread] at hread'
  exact toTree_injective (Prod.mk.inj (Except.ok.inj hread')).1

end OperatorTree

/-- Among the operators of the grammar there are symbols and words for logic only. -/
def Grammar.SignsOnly (g : Grammar) : Prop :=
  ∀ o ∈ g.operators.between ++ g.operators.before, (∃ s, o.kind = .symbol s) ∨
    o.kind = .keyword .andWord ∨ o.kind = .keyword .orWord ∨ o.kind = .keyword .notWord

namespace Grammar

variable {g : Grammar}

theorem Accepted.binds (hg : g.Accepted) : g.Binds :=
  ⟨hg.castPrecedence_bounds.1, fun _ _ ho => (hg.declared.between ho).1.positive⟩

theorem Accepted.hasSigns (hg : g.Accepted) (hs : g.SignsOnly) : g.HasSigns := by
  have hone : ∀ o ∈ g.operators.between ++ g.operators.before, o.kind.isSign = true := by
    intro o ho
    obtain ⟨⟨word, hw⟩, -⟩ := hg.declared o ho
    rcases hs o ho with ⟨s, hk⟩ | hk | hk | hk <;> rw [hk]
    · simp only [hk, TokenKind.ofOperatorText?, Option.or_eq_some_iff, Option.map_eq_some_iff] at hw
      rcases hw with ⟨s', hs', he⟩ | ⟨-, k, -, he⟩
      · obtain rfl : s' = s := by simpa using he
        simpa [TokenKind.isSign] using List.mem_of_find?_eq_some hs'
      · cases he
    all_goals rfl
  intro k hk
  rcases hk with hk | hk <;> obtain ⟨o, ho⟩ := Option.isSome_iff_exists.1 hk
  · have hm := List.mem_of_find?_eq_some ho
    exact (hg.declared.between ho).2 ▸ hone o (List.mem_append_left _ hm)
  · have hm := List.mem_of_find?_eq_some ho
    exact (hg.declared.before ho).2 ▸ hone o (List.mem_append_right _ hm)

end Grammar

namespace OperatorTree

variable {g : Grammar}

/-- Why reading stops behind some of the tokens `ts`: there an operator has the
precedence of one before it that allows no row, or a word for a type is reserved. -/
def StopsAt (g : Grammar) (ts : List Token) (s : Stop) : Prop :=
  ∃ us t vs, ts = us ++ t :: vs ∧ s.read = us.length ∧
    ((∃ u ∈ us, g.clash u.kind t.kind = true) ∨ t.kind = .name ∧ g.isReserved t.literal = true)

theorem StopsAt.upTo {ts : List Token} {s : Stop} (h : StopsAt g ts s) (vs : List Token) :
    StopsAt g (ts ++ vs) s := by
  obtain ⟨us, t, ws, rfl, hread, hwhy⟩ := h
  exact ⟨us, t, ws ++ vs, by simp, hread, hwhy⟩

theorem StopsAt.behind {ts : List Token} {s : Stop} (h : StopsAt g ts s) (us : List Token) :
    StopsAt g (us ++ ts) (s.behind us.length) := by
  obtain ⟨us', t, ws, rfl, hread, hwhy⟩ := h
  refine ⟨us ++ us', t, ws, by simp, by simp [Stop.behind, hread], hwhy.imp_left ?_⟩
  rintro ⟨u, hu, hclash⟩
  exact ⟨u, List.mem_append_right _ hu, hclash⟩

end OperatorTree

end StoryLang
