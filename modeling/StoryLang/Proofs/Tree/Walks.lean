/-
Reading goes forward.

A reader is made of a few single steps: it looks around, takes the current
token, marks where a statement starts, or stops. `Walks` says so, and what
each of these steps keeps is kept by every reader (`Walks.goes`): it stays in
the tokens, ends no further back than it starts, and where it stops, the tokens
around are looked up by numbers that they have. A reader with more steps goes
the same way as one that has enough.
-/
import StoryLang.Proofs.Tree.Steps

namespace StoryLang

/-! ## Places in tokens -/

/-- What is around token number `i` of some tokens, in a statement that starts
at number `start`. Every token is looked up by a number that one of them has. -/
def Stuck.ofIndex (g : Grammar) (all : List Token) (start i : Nat) (hs : start ≤ i)
    (hi : i < all.length) (expected : List TokenKind) : Stuck where
  grammar := g
  previous := if i = 0 then none else some all[i - 1]
  statement := List.ofFn fun k : Fin (i - start) => all.get ⟨start + k, by omega⟩
  current := all[i]
  next := if h : i + 1 < all.length then some all[i + 1] else none
  expected

namespace Stuck

variable {g : Grammar} {all : List Token} {start i : Nat} {hs : start ≤ i} {hi : i < all.length}
  {ks : List TokenKind}

theorem statement_ofIndex : (ofIndex g all start i hs hi ks).statement = (all.take i).drop start := by
  refine List.ext_getElem ?_ fun k hk hk' => ?_
  · simp only [ofIndex, List.length_ofFn, List.length_drop, List.length_take]
    omega
  · simp [ofIndex]

/-- The first token of the statement is the one it starts at. -/
theorem first_ofIndex : (ofIndex g all start i hs hi ks).first = all[start] := by
  rw [first, statement_ofIndex, List.headD_eq_head?_getD, List.head?_drop]
  rcases Nat.lt_or_eq_of_le hs with h | rfl
  · simp [h, Nat.lt_of_lt_of_le h (Nat.le_of_lt hi)]
  · rw [List.getElem?_eq_none (List.length_take_le _ _)]
    rfl

end Stuck

namespace Cursor

/-- The number of the current token: how many are behind it. -/
def index (c : Cursor) : Nat := c.behind.length

/-- A place in some tokens: each of them is behind it or comes from it on, and
its statement starts here or further back. -/
structure Among (all : List Token) (c : Cursor) : Prop where
  tokens : c.behind.reverse ++ c.upcoming = all
  started : c.started <:+ c.behind

namespace Among

variable {all : List Token} {c c' : Cursor}

theorem length_eq (h : c.Among all) : c.index + c.left + 1 = all.length := by
  simp [← h.tokens, index, left, upcoming, Nat.add_assoc]

theorem index_lt (h : c.Among all) : c.index < all.length := by
  have := h.length_eq
  omega

theorem start_le (h : c.Among all) : c.started.length ≤ c.index := h.started.length_le

theorem getElem_index (h : c.Among all) (hi : c.index < all.length) : all[c.index] = c.current := by
  simp [← h.tokens, index, upcoming]

theorem take_index (h : c.Among all) : all.take c.index = c.behind.reverse := by
  simp [← h.tokens, index]

theorem ended (h : c.Among all) (hall : all.getLast?.map Token.kind = some .eof) : c.Ended := by
  rw [← h.tokens, List.getLast?_append] at hall
  simpa [Ended, upcoming] using hall

theorem next (h : c.Among all) : c.next.Among all ∧ c.index ≤ c.next.index := by
  unfold Cursor.next
  split
  · exact ⟨h, Nat.le_refl _⟩
  · rename_i t ts ha
    refine ⟨⟨?_, h.started.trans (List.suffix_cons _ _)⟩, by simp [index]⟩
    simpa [upcoming, ha] using h.tokens

theorem startStatement (h : c.Among all) : c.startStatement.Among all := ⟨h.tokens, List.suffix_rfl⟩

/-- A statement goes on behind a part of it. -/
theorem restart (h : c.Among all) (h' : c'.Among all) (hle : c.index ≤ c'.index) :
    ({ c' with started := c.started } : Cursor).Among all := by
  refine ⟨h'.tokens, h.started.trans ?_⟩
  change c.behind <:+ c'.behind
  rw [← List.reverse_prefix, ← h.take_index, ← h'.take_index]
  exact List.take_prefix_take_left hle

/-- The tokens around a place are the ones with the numbers around its own. -/
theorem stuck_eq (h : c.Among all) (g : Grammar) (ks : List TokenKind) :
    c.stuck g ks = .ofIndex g all c.started.length c.index h.start_le h.index_lt ks := by
  have hlt := h.index_lt
  have hnext : all[c.index + 1]? = c.ahead.head? := by
    rw [← h.tokens, List.getElem?_append_right (by simp [index])]
    simp [index, upcoming, List.head?_eq_getElem?]
  have hprevious : (if c.index = 0 then none else all[c.index - 1]?) = c.behind.head? := by
    rw [← List.getLast?_reverse, ← h.take_index, List.getLast?_take]
    simp [show c.index - 1 < all.length by omega]
  have hstatement : (Stuck.ofIndex g all _ _ h.start_le hlt ks).statement = c.statement := by
    rw [Stuck.statement_ofIndex, h.take_index, Cursor.statement, List.reverse_take,
      Nat.sub_sub_self h.started.length_le]
  rw [Cursor.stuck, ← hstatement, ← hprevious, ← hnext]
  simp only [Stuck.ofIndex, Stuck.mk.injEq, true_and, and_true]
  refine ⟨?_, ?_, ?_⟩
  · split
    · rfl
    · simp
  · exact (h.getElem_index hlt).symm
  · split <;> simp [*]

end Among

end Cursor

/-- The fault is found at token number `i`: it could not come there, or it is a jump that is
outside. -/
inductive Fault.FoundAt (g : Grammar) (all : List Token) (i : Nat) : Fault → Prop where
  | stuck {start : Nat} (hs : start ≤ i) (hi : i < all.length) (expected : List TokenKind) :
    FoundAt g all i (.inTokens (Stuck.ofIndex g all start i hs hi expected).fault)
  | outside {code : Code} (jump : code.isOutside = true) (hi : i < all.length) :
    FoundAt g all i (.inTokens
      { code, args := [], position := all[i].position, token := all[i], expected := [] })

variable {α β : Type} {g : Grammar} {all : List Token}

/-- What reading from a place on comes to: something is read and reading goes on at least so many
tokens further on, or a fault is found there or further on. -/
def Cursor.Goes (g : Grammar) (all : List Token) (c : Cursor) (least : α → Nat) :
    Except Fault (α × Cursor) → Prop
  | .ok (a, c') => c'.Among all ∧ c.index + least a ≤ c'.index
  | .error f => ∃ i, c.index ≤ i ∧ f.FoundAt g all i

/-- A run that goes on further on goes forward all the more. -/
theorem Cursor.Goes.after {c c' : Cursor} {least : α → Nat} {out : Except Fault (α × Cursor)}
    (h : c'.Goes g all least out) (hle : c.index ≤ c'.index) : c.Goes g all least out := by
  cases out with
  | ok out => exact ⟨h.1, Nat.le_trans (by omega) h.2⟩
  | error f =>
    obtain ⟨i, hi, hf⟩ := h
    exact ⟨i, Nat.le_trans hle hi, hf⟩

namespace Read

/-! ## Single steps -/

/-- The reader `r` is made of single steps. So is `r'`, step by step the same, but where `r` is
out of steps. -/
inductive Walks (g : Grammar) : {α : Type} → (r r' : Read α) → Prop where
  | spent {α : Type} {r' : Read α} : Walks g tooManySteps r'
  | look {α : Type} (seen : Token → List Token → α) :
    Walks g (fun c => .ok (seen c.current c.ahead, c)) (fun c => .ok (seen c.current c.ahead, c))
  | take : Walks g take take
  | leaf : Walks g leaf leaf
  | startStatement : Walks g startStatement startStatement
  | unexpected {α : Type} (ks : List TokenKind) :
    Walks g (unexpected (α := α) g ks) (unexpected g ks)
  | refuse {α : Type} {code : Code} (jump : code.isOutside = true) :
    Walks g (refuse (α := α) code) (refuse code)
  | bind {α β : Type} {r r' : Read α} {f f' : α → Read β} (first : Walks g r r')
    (after : ∀ a, Walks g (f a) (f' a)) : Walks g (r >>= f) (r' >>= f')
  | within {α : Type} {r r' : Read α} (inner : Walks g r r') : Walks g (within r) (within r')

/-- From any place in some tokens a reader with steps left goes forward, and one with more steps
comes to the same. -/
theorem Walks.goes {r r' : Read α} (h : Walks g r r') : ∀ {c : Cursor}, c.Among all →
    r c = .error (.internal .tooManySteps) ∨ r' c = r c ∧ c.Goes g all (fun _ => 0) (r c) := by
  induction h with
  | spent => exact fun _ => .inl rfl
  | look => exact fun hc => .inr ⟨rfl, hc, Nat.le_refl _⟩
  | take => exact fun hc => .inr ⟨rfl, hc.next⟩
  | leaf => exact fun hc => .inr ⟨rfl, hc.next⟩
  | startStatement => exact fun hc => .inr ⟨rfl, hc.startStatement, Nat.le_refl _⟩
  | unexpected ks =>
    refine fun hc => .inr ⟨rfl, _, Nat.le_refl _, ?_⟩
    rw [hc.stuck_eq]
    exact .stuck _ _ ks
  | refuse jump =>
    refine fun hc => .inr ⟨rfl, _, Nat.le_refl _, ?_⟩
    have hi := Fault.FoundAt.outside (g := g) jump hc.index_lt
    rwa [hc.getElem_index] at hi
  | @bind _ _ r r' f f' _ _ ih ih' =>
    intro c hc
    rw [bind_apply, bind_apply]
    rcases ih hc with hspent | ⟨hsame, hgoes⟩
    · exact .inl (by rw [hspent])
    rw [hsame]
    cases hr : r c with
    | error e => exact .inr ⟨rfl, by rwa [hr] at hgoes⟩
    | ok out =>
      rw [hr] at hgoes
      rcases ih' out.1 hgoes.1 with hspent | ⟨hsame', hgoes'⟩
      · exact .inl hspent
      · exact .inr ⟨hsame', hgoes'.after hgoes.2⟩
  | @within _ r r' _ ih =>
    intro c hc
    rw [within_apply, within_apply]
    rcases ih hc with hspent | ⟨hsame, hgoes⟩
    · exact .inl (by rw [hspent])
    rw [hsame]
    cases hr : r c with
    | error e => exact .inr ⟨rfl, by rwa [hr] at hgoes⟩
    | ok out =>
      rw [hr] at hgoes
      exact .inr ⟨rfl, hc.restart hgoes.1 hgoes.2, hgoes.2⟩

/-- A reader that is made of single steps walks. -/
theorem Steps.walks {e : Enclosing} {r r' : Read α} (h : Steps Cursor g e r r') : Walks g r r' := by
  induction h with
  | spent => exact .spent
  | pure a => exact .look fun _ _ => a
  | current => exact .look fun t _ => t
  | following => exact .look fun t ts => ts.headD t
  | take => exact .take
  | startStatement => exact .startStatement
  | unexpected ks => exact .unexpected ks
  | refuse jump => exact .refuse jump
  | @isInLoop e => exact .look fun _ _ => e.inLoop
  | @isInFunction e => exact .look fun _ _ => e.inFunction
  | bind _ _ ih ih' => exact ih.bind ih'
  | within _ ih => exact ih.within
  | inLoop _ ih => exact ih
  | inFunction _ ih => exact ih

end Read

end StoryLang
