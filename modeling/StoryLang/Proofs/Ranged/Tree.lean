/-
Reading by numbers stays in range.

A place by numbers and a cursor stand at the same token, and the counts say
what is around (`Stands`). Every single step of reading keeps this, finds its
tokens, and gives back the counts it was given (`Agrees`); so every reader does
(`Steps.agrees`). Hence trees read by numbers are the trees read from cursors.
-/
import StoryLang.Proofs.Tree.Progress
import StoryLang.Ranged.Tree

namespace StoryLang.Ranged

variable {α β : Type} {g : Grammar} {e : Enclosing} {c c' : Cursor} {p p' p'' : Place}

/-- A cursor and a place stand at the same token, and as much is around. -/
structure Stands (e : Enclosing) (c : Cursor) (p : Place) : Prop where
  among : c.Among p.tokens
  index : p.index = c.index
  start : p.start = c.started.length
  inFunction : e.inFunction = decide (p.functions ≠ 0)
  inLoop : e.inLoop = decide (p.loops ≠ 0)

/-- Places in the same tokens with as much around. -/
structure SameAround (p p' : Place) : Prop where
  tokens : p'.tokens = p.tokens
  functions : p'.functions = p.functions
  loops : p'.loops = p.loops

theorem SameAround.rfl : SameAround p p := ⟨.refl _, .refl _, .refl _⟩

theorem SameAround.trans (h : SameAround p p') (h' : SameAround p' p'') : SameAround p p'' :=
  ⟨h'.tokens.trans h.tokens, h'.functions.trans h.functions, h'.loops.trans h.loops⟩

/-- What reading from a cursor and from a place comes to: the same, no further back, and with as
much around as before. -/
inductive Agrees (e : Enclosing) (c : Cursor) (p : Place) :
    Except Fault (α × Cursor) → Except Halt (α × Place) → Prop where
  | gives {a : α} {c' : Cursor} {p' : Place} (stands : Stands e c' p') (around : SameAround p p')
    (further : c.index ≤ c'.index) : Agrees e c p (.ok (a, c')) (.ok (a, p'))
  | stops {f : Fault} {p' : Place} (around : SameAround p p') :
    Agrees e c p (.error f) (.error (.stopped f p'))

/-- What reading comes to further on, it comes to from here. -/
theorem Agrees.after {o : Except Fault (α × Cursor)} {o' : Except Halt (α × Place)}
    (h : Agrees e c' p' o o') (around : SameAround p p') (further : c.index ≤ c'.index) :
    Agrees e c p o o' := by
  cases h with
  | stops around' => exact .stops (around.trans around')
  | gives stands around' further' =>
    exact .gives stands (around.trans around') (Nat.le_trans further further')

namespace Stands

theorem getElem?_index (h : Stands e c p) : p.tokens[p.index]? = some c.current := by
  rw [h.index, List.getElem?_eq_getElem h.among.index_lt, h.among.getElem_index]

theorem getElem?_next (h : Stands e c p) : p.tokens[p.index + 1]? = c.ahead.head? := by
  rw [h.index, ← h.among.tokens, List.getElem?_append_right (by simp [Cursor.index])]
  simp [Cursor.index, Cursor.upcoming, List.head?_eq_getElem?]

/-- The statement that a place cuts out is the one that the cursor remembers. -/
theorem statement?_eq (h : Stands e c p) : p.statement? = some c.statement := by
  have hlt := h.among.index_lt
  have hle := h.among.start_le
  rw [Place.statement?, h.index, h.start, Nat.min_eq_left hle, Nat.min_eq_left (Nat.le_of_lt hlt),
    slice?_of_le hle (Nat.le_of_lt hlt), h.among.take_index, Cursor.statement, List.reverse_take,
    Nat.sub_sub_self h.among.started.length_le]

/-- What is around a place by numbers is what is around the cursor. -/
theorem stuck?_eq (h : Stands e c p) (ks : List TokenKind) : p.stuck? g ks = some (c.stuck g ks) := by
  have hprevious : ((minus? p.index 1).bind fun i => p.tokens[i]?) = c.behind.head? := by
    rw [h.index, ← List.getLast?_reverse, ← h.among.take_index, List.getLast?_take]
    have hlt := h.among.index_lt
    by_cases hz : c.index = 0
    · simp [hz, minus?]
    · rw [minus?_of_le (Nat.pos_of_ne_zero hz), if_neg hz, Option.bind_some,
        List.getElem?_eq_getElem (by omega), Option.some_or]
  rw [Place.stuck?, h.statement?_eq, h.getElem?_index, h.getElem?_next, hprevious]
  rfl

end Stands

variable {r : Read α} {r' : ReadFrom Place Halt α} {f : α → Read β}
  {f' : α → ReadFrom Place Halt β}

theorem bind_apply (r : ReadFrom Place Halt α) (f : α → ReadFrom Place Halt β) (p : Place) :
    (r >>= f) p = match r p with
      | .ok (a, p') => f a p'
      | .error h => .error h := by
  simp only [bind, StateT.bind, Except.bind]
  cases r p <;> rfl

/-- A reader at a cursor and a reader by numbers do the same at the same token, unless the one at
the cursor is out of steps. -/
def AgreesAt (e : Enclosing) (r : Read α) (r' : ReadFrom Place Halt α) : Prop :=
  ∀ c p, Stands e c p → r c = .error (.internal .tooManySteps) ∨ Agrees e c p (r c) (r' p)

theorem AgreesAt.bind (h : AgreesAt e r r') (hf : ∀ a, AgreesAt e (f a) (f' a)) :
    AgreesAt e (r >>= f) (r' >>= f') := by
  intro c p hs
  rw [Read.bind_apply, bind_apply]
  rcases h c p hs with hspent | hagrees
  · exact .inl (by rw [hspent])
  generalize r c = o, r' p = o' at hagrees ⊢
  cases hagrees with
  | stops around => exact .inr (.stops around)
  | @gives a c' p' stands around further =>
    exact (hf a c' p' stands).imp_right fun hnext => hnext.after around further

theorem AgreesAt.within (h : AgreesAt e r r') : AgreesAt e (Read.within r) (Read.within r') := by
  intro c p hs
  have happly : Read.within r' p = (r' p).map fun out => (out.1, { out.2 with start := p.start }) := rfl
  rw [Read.within_apply, happly]
  rcases h c p hs with hspent | hagrees
  · exact .inl (by rw [hspent])
  generalize r c = o, r' p = o' at hagrees ⊢
  cases hagrees with
  | stops around => exact .inr (.stops around)
  | gives stands around further =>
    refine .inr (.gives ⟨?_, stands.index, hs.start, stands.inFunction, stands.inLoop⟩
      ⟨around.tokens, around.functions, around.loops⟩ further)
    exact (around.tokens ▸ hs.among).restart stands.among further

/-- A loop that is entered is there to be left. -/
theorem AgreesAt.inLoop (h : AgreesAt e.loop r r') :
    AgreesAt e (Read.inLoop r) (Read.inLoop r') := by
  intro c p hs
  have happly : Read.inLoop r' p = leaving Place.leaveLoop? (r' { p with loops := p.loops + 1 }) := rfl
  rw [Read.inLoop_eq, happly]
  have hentered : Stands e.loop c { p with loops := p.loops + 1 } :=
    ⟨hs.among, hs.index, hs.start, hs.inFunction, by simp [Enclosing.loop]⟩
  refine (h _ _ hentered).imp_right fun hagrees => ?_
  generalize r c = o, r' _ = o' at hagrees ⊢
  have hleave {p' : Place} (ha : SameAround { p with loops := p.loops + 1 } p') :
      p'.leaveLoop? = some { p' with loops := p.loops } := by
    rw [Place.leaveLoop?, ha.loops, minus?_of_le (Nat.le_add_left 1 _)]
    rfl
  cases hagrees with
  | stops around =>
    rw [leaving, hleave around]
    exact .stops ⟨around.tokens, around.functions, rfl⟩
  | gives stands around further =>
    rw [leaving, hleave around]
    exact .gives ⟨stands.among, stands.index, stands.start, stands.inFunction, hs.inLoop⟩
      ⟨around.tokens, around.functions, rfl⟩ further

/-- A function that is entered is there to be left. -/
theorem AgreesAt.inFunction (h : AgreesAt .function r r') :
    AgreesAt e (Read.inFunction r) (Read.inFunction r') := by
  intro c p hs
  have happly : Read.inFunction r' p = leaving (·.leaveFunction? p.loops)
      (r' { p with functions := p.functions + 1, loops := 0 }) := rfl
  rw [Read.inFunction_eq, happly]
  have hentered : Stands .function c { p with functions := p.functions + 1, loops := 0 } :=
    ⟨hs.among, hs.index, hs.start, by simp [Enclosing.function], rfl⟩
  refine (h _ _ hentered).imp_right fun hagrees => ?_
  generalize r c = o, r' _ = o' at hagrees ⊢
  have hleave {p' : Place} (ha : SameAround { p with functions := p.functions + 1, loops := 0 } p') :
      p'.leaveFunction? p.loops = some { p' with functions := p.functions, loops := p.loops } := by
    rw [Place.leaveFunction?, ha.functions, minus?_of_le (Nat.le_add_left 1 _)]
    rfl
  cases hagrees with
  | stops around =>
    rw [leaving, hleave around]
    exact .stops ⟨around.tokens, rfl, rfl⟩
  | gives stands around further =>
    rw [leaving, hleave around]
    exact .gives ⟨stands.among, stands.index, stands.start, hs.inFunction, hs.inLoop⟩
      ⟨around.tokens, rfl, rfl⟩ further

/-- Looking at a token that is there. -/
theorem Stands.looks (hs : Stands e c p) (a : α) : Agrees e c p (.ok (a, c)) (.ok (a, p)) :=
  .gives hs .rfl (Nat.le_refl _)

theorem agreesAt_current : AgreesAt e Reader.current Reader.current := by
  intro c p hs
  have happly : (Reader.current : ReadFrom Place Halt Token) p =
      (orHalt p.tokens[p.index]?).map (·, p) := rfl
  rw [happly, hs.getElem?_index]
  exact .inr (hs.looks _)

theorem agreesAt_following : AgreesAt e Reader.following Reader.following := by
  intro c p hs
  have happly : (Reader.following : ReadFrom Place Halt Token) p =
      (orHalt (p.tokens[p.index + 1]?.or p.tokens[p.index]?)).map (·, p) := rfl
  have hfollowing : c.ahead.head?.or (some c.current) = some (c.ahead.headD c.current) := by
    cases c.ahead <;> rfl
  rw [happly, hs.getElem?_index, hs.getElem?_next, hfollowing]
  exact .inr (hs.looks _)

/-- The last token is not gone past. -/
theorem agreesAt_take : AgreesAt e Read.take Read.take := by
  intro c p hs
  have happly : (Read.take : ReadFrom Place Halt Token) p = (orHalt p.tokens[p.index]?).map fun t =>
      (t, if p.index + 1 < p.tokens.length then { p with index := p.index + 1 } else p) := rfl
  rw [happly, hs.getElem?_index, Read.take_apply]
  refine .inr ?_
  obtain ⟨hnext, hle⟩ := hs.among.next
  have hlength := hs.among.length_eq
  have hindex : c.next.index = if p.index + 1 < p.tokens.length then p.index + 1 else p.index := by
    rw [hs.index]
    unfold Cursor.next
    split
    · rename_i hahead
      rw [if_neg (by simp only [Cursor.left, hahead, List.length_nil] at hlength; omega)]
    · rename_i t ts hahead
      rw [if_pos (by simp only [Cursor.left, hahead, List.length_cons] at hlength; omega)]
      simp [Cursor.index]
  have hstarted : c.next.started = c.started := by
    unfold Cursor.next
    split <;> rfl
  split at hindex
  all_goals
    rename_i hlast
    simp only [hlast, orHalt, Except.map, if_true, if_false]
    exact .gives ⟨hnext, hindex.symm, hstarted ▸ hs.start, hs.inFunction, hs.inLoop⟩ ⟨rfl, rfl, rfl⟩ hle

theorem agreesAt_unexpected (ks : List TokenKind) :
    AgreesAt (α := α) e (Read.unexpected g ks) (Read.unexpected g ks) := by
  intro c p hs
  have happly : (Read.unexpected g ks : ReadFrom Place Halt α) p =
      (orHalt (p.stuck? g ks)).bind fun s => .error (.stopped (.inTokens s.fault) p) := rfl
  rw [happly, hs.stuck?_eq]
  exact .inr (.stops .rfl)

end Ranged

open Ranged

/-- Every reader agrees, since all of its single steps do. -/
theorem Read.Steps.agrees {α : Type} {g : Grammar} {e : Enclosing} {r : Read α}
    {r' : ReadFrom Place Halt α} (h : Steps Place g e r r') : AgreesAt e r r' := by
  induction h with
  | spent => exact fun _ _ _ => .inl rfl
  | pure a => exact fun _ _ hs => .inr (hs.looks a)
  | current => exact agreesAt_current
  | following => exact agreesAt_following
  | take => exact agreesAt_take
  | startStatement =>
    exact fun _ _ hs => .inr (.gives ⟨hs.among.startStatement, hs.index, hs.index,
      hs.inFunction, hs.inLoop⟩ ⟨rfl, rfl, rfl⟩ (Nat.le_refl _))
  | unexpected ks => exact agreesAt_unexpected ks
  | refuse jump =>
    refine agreesAt_current.bind fun token c p hs => ?_
    exact .inr (.stops .rfl)
  | @isInLoop e =>
    intro c p hs
    have happly : Read.isInLoop e c = .ok (decide (p.loops ≠ 0), c) := by
      rw [← hs.inLoop]
      rfl
    exact .inr (happly ▸ hs.looks _)
  | @isInFunction e =>
    intro c p hs
    have happly : Read.isInFunction e c = .ok (decide (p.functions ≠ 0), c) := by
      rw [← hs.inFunction]
      rfl
    exact .inr (happly ▸ hs.looks _)
  | bind _ _ ih ih' => exact ih.bind ih'
  | within _ ih => exact ih.within
  | inLoop _ ih => exact ih.inLoop
  | inFunction _ ih => exact ih.inFunction

namespace Ranged

variable {tokens : List Token}

theorem stands_first (tokens : List Token) :
    Stands .story (.start tokens) (.first tokens) := by
  refine ⟨Cursor.among_start tokens, ?_, ?_, rfl, rfl⟩
  all_goals
    unfold Cursor.start Place.first
    split <;> rfl

/-- A reader that fails with faults of the story comes to the same by numbers. -/
theorem outcome?_eq {post : α → Cursor → Prop} {e : Enclosing} (h : AgreesAt e r r')
    (hs : Stands e c p) (hr : Read.Ensures r c post) :
    outcome? (r' p) = some ((r c).map (·.1)) := by
  rcases h c p hs with hspent | hagrees
  · rw [Read.Ensures, hspent] at hr
    exact absurd rfl hr.code_ne
  generalize r c = o, r' p = o' at hagrees
  cases hagrees <;> rfl

theorem ofTokens_eq (hg : g.KeepsLayout) (tokens : List Token) :
    ofTokens g tokens = some (Tree.ofTokens g tokens) := by
  have hsteps := (Read.story_steps (S := Place) (g := g) (k := 0) (Read.bound tokens)).agrees
  rw [Nat.zero_add] at hsteps
  exact outcome?_eq hsteps (stands_first tokens) (Read.story_ensures hg tokens)

theorem ofFragment_eq (hg : g.KeepsLayout) (tokens : List Token) :
    ofFragment g tokens = some (Tree.ofFragment g tokens) := by
  have hsteps := (Read.fragment_steps (S := Place) (e := .story) (g := g) (k := 0)
    (Read.bound tokens)).agrees
  rw [Nat.zero_add] at hsteps
  exact outcome?_eq hsteps (stands_first tokens) (Read.fragment_ensures hg tokens)

end StoryLang.Ranged
