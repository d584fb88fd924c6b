/-
A value alone on its line.

A statement that starts with a path is read by another way than a value: the
path is read first, and what follows it decides. Both ways come to the same.
`lineValue` is the statement's way to a value. What the reader of values gives,
`lineValue` gives (`anyValue_lasts_lineValue`), and a statement that assigns
nothing is what `lineValue` gives, as a statement (`simple_iff`). So a line
assigns a value if, and only if, the value alone on its line is a statement
(`ofTokens_assigned_alone`).

The two ways are allowed different numbers of steps, which means nothing to the
language. `Lasts r r'` says that a reader with more steps ends as the one with
fewer does, unless that one runs out of steps: in front of the same tokens both
fail, or both give the same and stop in front of the same tokens. What is behind
a cursor does not matter for that, since no single step looks there
(`Walks.lasts`).
-/
import StoryLang.Proofs.Follows
import StoryLang.Proofs.Tree.Climbing
import StoryLang.Proofs.Tree.Fork.Line
import StoryLang.Proofs.Tree.Walks
import StoryLang.Proofs.Tree.Yield

namespace StoryLang

namespace Cursor

variable {c c' : Cursor}

theorem same_of_upcoming (h : c'.upcoming = c.upcoming) :
    c'.current = c.current ∧ c'.ahead = c.ahead :=
  List.cons.inj h

theorem upcoming_next_congr (h : c'.upcoming = c.upcoming) :
    c'.next.upcoming = c.next.upcoming := by
  obtain ⟨hcurrent, hahead⟩ := same_of_upcoming h
  unfold next
  rw [hahead]
  split
  · exact h
  · rfl

theorem Ended.congr (h : c.Ended) (hc : c'.upcoming = c.upcoming) : c'.Ended := by
  unfold Ended
  rw [hc]
  exact h

end Cursor

namespace Read

variable {α β : Type} {g : Grammar} {r r' : Read α} {f f' : α → Read β}

/-- Both fail, or both give the same and stop in front of the same tokens. -/
abbrev SameEnd (o o' : Except Fault (α × Cursor)) : Prop :=
  EndAlike (fun _ _ => True)
    (fun out out' => out'.1 = out.1 ∧ out'.2.upcoming = out.2.upcoming) o o'

/-- In front of the same tokens `r'` ends as `r` does, unless `r` is out of steps. -/
def Lasts (r r' : Read α) : Prop :=
  ∀ c c' : Cursor, c'.upcoming = c.upcoming →
    r c = .error (.internal .tooManySteps) ∨ SameEnd (r c) (r' c')

namespace Lasts

theorem bind (h : Lasts r r') (hf : ∀ a, Lasts (f a) (f' a)) : Lasts (r >>= f) (r' >>= f') := by
  intro c c' hc
  rw [bind_apply, bind_apply]
  rcases h c c' hc with hspent | h
  · exact .inl (by rw [hspent])
  · generalize r c = o, r' c' = o' at h ⊢
    cases h with
    | error => exact .inr (.error trivial)
    | @ok a a' hsame =>
      obtain ⟨a, d⟩ := a
      obtain ⟨a', d'⟩ := a'
      obtain ⟨rfl, hd⟩ := hsame
      exact hf _ d d' hd

/-- A reader that fails with a fault of the story is not out of steps. -/
theorem sameEnd {c c' : Cursor} {post : α → Cursor → Prop} (h : Lasts r r') (hr : Ensures r c post)
    (hc : c'.upcoming = c.upcoming) : SameEnd (r c) (r' c') := by
  rcases h c c' hc with hspent | h
  · rw [Ensures, hspent] at hr
    exact absurd rfl hr.code_ne
  · exact h

/-- What is read with fewer steps is read with more. -/
theorem of_ok {c c' d : Cursor} {a : α} (h : Lasts r r') (hr : r c = .ok (a, d))
    (hc : c'.upcoming = c.upcoming) : ∃ d', r' c' = .ok (a, d') ∧ d'.upcoming = d.upcoming := by
  rcases h c c' hc with hspent | h
  · simp [hr] at hspent
  · obtain ⟨⟨a', d'⟩, hr', rfl, hd⟩ := h.exists_ok hr
    exact ⟨d', hr', hd⟩

/-- And what is read with more is read with fewer, if they suffice. -/
theorem ok_of {c c' d' : Cursor} {a : α} {post : α → Cursor → Prop} (h : Lasts r r')
    (hpost : Ensures r c post) (hr : r' c' = .ok (a, d')) (hc : c'.upcoming = c.upcoming) :
    ∃ d, r c = .ok (a, d) ∧ d'.upcoming = d.upcoming := by
  have hsame := h.sameEnd hpost hc
  rw [hr] at hsame
  cases ho : r c with
  | error e => rw [ho] at hsame; cases hsame
  | ok out =>
    obtain ⟨b, d⟩ := out
    rw [ho] at hsame
    cases hsame with
    | ok results =>
      obtain ⟨rfl, hd⟩ := results
      exact ⟨d, rfl, hd⟩

end Lasts

/-- Single steps come to what is in front of a cursor, and not to what is behind it. -/
theorem Walks.lasts (h : Walks g r r') : Lasts r r' := by
  induction h with
  | spent => exact fun _ _ _ => .inl rfl
  | look =>
    intro c c' hc
    refine .inr (.ok ⟨?_, hc⟩)
    rw [(Cursor.same_of_upcoming hc).1, (Cursor.same_of_upcoming hc).2]
  | take =>
    exact fun _ _ hc =>
      .inr (.ok ⟨(Cursor.same_of_upcoming hc).1, Cursor.upcoming_next_congr hc⟩)
  | leaf =>
    exact fun _ _ hc =>
      .inr (.ok ⟨congrArg Tree.token (Cursor.same_of_upcoming hc).1, Cursor.upcoming_next_congr hc⟩)
  | startStatement => exact fun _ _ hc => .inr (.ok ⟨rfl, hc⟩)
  | unexpected => exact fun _ _ _ => .inr (.error trivial)
  | refuse => exact fun _ _ _ => .inr (.error trivial)
  | bind _ _ ih ih' => exact ih.bind ih'
  | @within _ r r' _ ih =>
    intro c c' hc
    rw [within_apply, within_apply]
    rcases ih c c' hc with hspent | hsame
    · exact .inl (by rw [hspent])
    generalize r c = o, r' c' = o' at hsame ⊢
    cases hsame with
    | error => exact .inr (.error trivial)
    | ok hsame => exact .inr (.ok hsame)

end Read

namespace Tree

/-- The statement that a value alone is: a call, or one that holds the value. -/
def asStatement (v : Tree) : Tree :=
  if v.rule?.any Rule.isCall then v else .of .expressionStatement [v]

/-- The statements of that form: calls, and those that hold a value. -/
def isAlone (t : Tree) : Bool := t.rule?.any Rule.isCall || t.isA .expressionStatement

/-- The assignment of a value. -/
def assignment (target : Tree) (sign : Token) (v : Tree) : Tree :=
  .of .assignment [target, .token sign, v]

theorem isAlone_asStatement (v : Tree) : v.asStatement.isAlone = true := by
  unfold asStatement isAlone
  split
  · simp [*]
  · rfl

theorem asStatement_injective : Function.Injective asStatement := by
  intro v v' h
  unfold asStatement at h
  split at h <;> split at h
  · exact h
  · subst h
    contradiction
  · subst h
    contradiction
  · simpa using h

end Tree

/-- The keywords that a statement can be known by. -/
def TokenKind.opensStatement : TokenKind → Bool
  | .keyword .ifWord | .keyword .foreachWord | .keyword .whileWord | .keyword .tryWord
  | .keyword .functionWord | .keyword .whenWord | .keyword .returnWord | .keyword .breakWord
  | .keyword .continueWord | .keyword .throwWord | .keyword .importWord => true
  | _ => false

/-- Values and what they can start with. -/
def Phrase.isValue : Phrase → Bool
  | .name | .path | .value | .anyValue => true
  | _ => false

/-- The tokens start, and not like a statement with a keyword. -/
def StartsPlain (ts : List Token) : Prop := ∃ u us, ts = u :: us ∧ u.kind.opensStatement = false

namespace StartsPlain

variable {ts us : List Token}

theorem cons {u : Token} (h : u.kind.opensStatement = false) : StartsPlain (u :: us) :=
  ⟨u, us, rfl, h⟩

theorem append (h : StartsPlain ts) : StartsPlain (ts ++ us) := by
  obtain ⟨u, ts, rfl, hu⟩ := h
  exact cons hu

theorem head {after : List Token} (h : StartsPlain ts) (hp : ts <+: us ++ after) :
    ∀ u ∈ us.head?, u.kind.opensStatement = false := by
  obtain ⟨u, ts, rfl, hu⟩ := h
  cases us with
  | nil => simp
  | cons v us =>
    obtain ⟨rfl, -⟩ := List.cons_prefix_cons.1 hp
    simpa using hu

end StartsPlain

/-- No value starts like a statement with a keyword. -/
theorem Derives.startsPlain {g : Grammar} (hg : g.Regular) {p : Phrase} {ts : List Token}
    {trees : List Tree} (h : Derives g p ts trees) (hp : p.isValue = true) : StartsPlain ts := by
  induction h
  case name kind _ => exact .cons (by rw [kind]; rfl)
  case path ih _ => exact (ih rfl).append
  case functionCall ih _ => exact (ih rfl).append
  case cast ih _ => exact (ih rfl).append
  case binary ih _ => exact (ih rfl).append
  case unary operator _ _ =>
    rcases hg.before.1 operator with kind | kind <;> exact .cons (by rw [kind]; rfl)
  case number kind => rcases kind with kind | kind <;> exact .cons (by rw [kind]; rfl)
  case boolean kind => rcases kind with kind | kind <;> exact .cons (by rw [kind]; rfl)
  case string kind => exact .cons (by rw [kind]; rfl)
  case null kind => exact .cons (by rw [kind]; rfl)
  case ofPath ih => exact ih rfl
  case ofValue ih => exact ih rfl
  -- a call starts with its subject
  case service ih _ _ => exact (ih rfl).append
  case serviceOutput ih _ _ _ => exact (ih rfl).append.append
  case chain ih _ _ _ => exact (ih rfl).append.append
  case mutation ih _ _ _ => exact (ih rfl).append.append
  -- everything else is no value, or starts with its bracket
  all_goals first
    | exact Bool.noConfusion hp
    | exact .cons (by simp [TokenKind.opensStatement, *])

/-- A statement that is a value alone starts as a value does. -/
theorem Derives.alone_startsPlain {g : Grammar} (hg : g.Regular) {ts : List Token} {t : Tree}
    (h : Derives g .statement ts [t]) (ht : t.isAlone = true) : StartsPlain ts := by
  cases h with
  | call value _ _ => exact (value.startsPlain hg rfl).append
  | callBlock value _ _ => exact (value.startsPlain hg rfl).append
  | valueAlone value _ _ => exact (value.startsPlain hg rfl).append
  | _ => cases ht

namespace Read

variable {g : Grammar} {n k : Nat} {c d : Cursor} {t v : Tree}

theorem isAt_bind {β : Type} (k : TokenKind) (f : Bool → Read β) (c : Cursor) :
    (isAt k >>= f) c = f (decide (c.current.kind = k)) c :=
  rfl

theorem isBefore_bind {β : Type} (k : TokenKind) (f : Bool → Read β) (c : Cursor) :
    (isBefore k >>= f) c = f (decide ((c.ahead.headD c.current).kind = k)) c :=
  rfl

theorem kind_bind {β : Type} (f : TokenKind → Read β) (c : Cursor) :
    (kind >>= f) c = f c.current.kind c :=
  rfl

/-! ## From a value to its statement -/

theorem asStatement_serviceTail (value : Nat → Read Tree) (t : Tree) :
    Tree.asStatement <$> serviceTail g value n t = serviceTail g value n t := by
  unfold serviceTail
  simp only [map_bind, apply_ite (Functor.map Tree.asStatement), map_pure]
  rfl

theorem asStatement_mutationTail (value : Nat → Read Tree) (t : Tree) :
    Tree.asStatement <$> mutationTail g value n t = mutationTail g value n t := by
  unfold mutationTail
  simp only [map_bind, map_pure]
  rfl

/-- Behind a value a statement goes on as any value does. -/
theorem valueStatement_eq (g : Grammar) (n : Nat) (t : Tree) :
    (valueStatement g n t : Read Tree) = Tree.asStatement <$> callTail g (expression g n) n t := by
  funext c
  unfold valueStatement callTail
  rw [map_bind, isAt_bind, isAt_bind]
  by_cases hname : c.current.kind = .name
  · simp only [hname, decide_true, if_true, apply_ite (Functor.map Tree.asStatement),
      asStatement_serviceTail, asStatement_mutationTail]
    rw [isAt_bind, hname]
    rfl
  · simp only [hname, decide_false, Bool.false_eq_true, if_false, map_pure, Tree.asStatement]
    split <;> rfl

/-! ## The two ways to a value -/

/-- A value by the way of a statement, which reads a path at the start first. -/
def lineValue (g : Grammar) (n : Nat) : Read Tree := do
  if ← isAt .name then
    if ← isBefore (.symbol .leftParen) then anyValue g n
    else
      let target ← path g (expression g n) n
      callTail g (expression g n) n (← climb g (expression g n) 0 n target)
  else anyValue g n

/-- At a name with no parenthesis behind it, a value starts with a path. -/
theorem expression_path (hname : c.current.kind = .name)
    (hnext : (c.ahead.headD c.current).kind ≠ .symbol .leftParen) :
    expression g (n + 1) 0 c =
      (path g (expression g n) n >>= climb g (expression g n) 0 n) c := by
  have hoperand : operand g (expression g n) n c = path g (expression g n) n c := by
    unfold operand
    rw [kind_bind, hname]
    change (isBefore (.symbol .leftParen) >>= _) c = _
    rw [isBefore_bind, decide_eq_false hnext]
    rfl
  change (operand g (expression g n) n >>= climb g (expression g n) 0 n) c = _
  rw [bind_apply, bind_apply, hoperand]

theorem anyValue_lasts_lineValue : ∀ n, Lasts (anyValue g n) (lineValue g (k + n))
  | 0 => fun _ _ _ => .inl rfl
  | n + 1 => by
    intro c c' hc
    have hsame := (anyValue_steps (e := .story) (g := g) (k := k) (n + 1)).walks.lasts c c' hc
    obtain ⟨hcurrent, hahead⟩ := Cursor.same_of_upcoming hc
    unfold lineValue
    rw [isAt_bind, hcurrent]
    by_cases hname : c.current.kind = .name
    swap
    · simpa only [hname, decide_false, Bool.false_eq_true, if_false] using hsame
    simp only [hname, decide_true, if_true]
    rw [isBefore_bind, hcurrent, hahead]
    by_cases hnext : (c.ahead.headD c.current).kind = .symbol .leftParen
    · simpa only [hnext, decide_true, if_true] using hsame
    -- the operand that the value starts with is the path
    simp only [hnext, decide_false, Bool.false_eq_true, if_false]
    have hvalue : anyValue g (n + 1) c = (path g (expression g n) n >>= fun target =>
        climb g (expression g n) 0 n target >>= callTail g (expression g (n + 1)) (n + 1)) c := by
      rw [← bind_assoc]
      change (expression g (n + 1) 0 >>= callTail g (expression g (n + 1)) (n + 1)) c = _
      rw [bind_apply, expression_path hname hnext, ← bind_apply]
    rw [hvalue]
    have hsteps : k + (n + 1) = k + 1 + n := by omega
    refine Lasts.bind ?_ (fun target => Lasts.bind ?_ fun t => ?_) c c' hc
    · rw [hsteps]
      exact (path_steps (e := .story) (expression_steps n) n).walks.lasts
    · rw [hsteps]
      exact (climb_steps (e := .story) (expression_steps n) 0 n target).walks.lasts
    · exact (callTail_steps (e := .story) (expression_steps (n + 1)) (n + 1) t).walks.lasts

/-! ## In front of an assignment sign -/

section

variable (hname : g.operators.between? .name = none)

/-- In front of such a token a value goes on no further. -/
theorem climb_ends (hcast : c.current.kind ≠ .keyword .asWord)
    (hbetween : g.operators.between? c.current.kind = none) (value : Nat → Read Tree) (min : Nat) :
    climb g value min (n + 1) t c = .ok (t, c) :=
  climb_blocked (by simp [Blocked, atCast, hcast, Grammar.binding, hbetween])

theorem isA_path {value : Nat → Read Tree} (h : path g value n c = .ok (t, d)) :
    t.isA .path = true := by
  unfold path at h
  rw [bind_apply] at h
  split at h
  · rename_i root c' _
    rw [bind_apply] at h
    split at h
    · rw [pure_apply] at h
      obtain ⟨rfl, -⟩ := Prod.mk.inj (Except.ok.inj h)
      rfl
    · cases h
  · cases h

/-- Behind a path and the sign comes the value that is assigned. -/
theorem afterPath_assign (hsign : c.current.kind = .symbol .assign) :
    afterPath g n t c =
      (Tree.assignment t c.current <$> anyValue g n) c.next := by
  unfold afterPath
  rw [isAt_bind, decide_eq_true hsign]
  rfl

include hname in
/-- Behind a path without an assignment sign a statement goes on as a value does. -/
theorem afterPath_eq (hpath : t.isA .path = true) (hsign : c.current.kind ≠ .symbol .assign) :
    afterPath g (n + 1) t c = (Tree.asStatement <$> (climb g (expression g (n + 1)) 0 (n + 1) t >>=
      callTail g (expression g (n + 1)) (n + 1))) c := by
  unfold afterPath
  rw [isAt_bind, decide_eq_false hsign, map_bind]
  change (isAt .name >>= _) c = _
  rw [isAt_bind]
  by_cases hk : c.current.kind = .name
  · rw [decide_eq_true hk, bind_apply, climb_ends (by simp [hk]) (by rw [hk, hname])]
    change serviceTail g (expression g (n + 1)) (n + 1) t c =
      (Tree.asStatement <$> callTail g (expression g (n + 1)) (n + 1) t) c
    unfold callTail
    rw [map_bind, isAt_bind, decide_eq_true hk, hpath]
    simp only [if_true, asStatement_serviceTail]
  · rw [decide_eq_false hk]
    change (climb _ _ _ _ _ >>= fun t => valueStatement g (n + 1) t) c = _
    simp only [valueStatement_eq]

theorem otherStatement_eq (g : Grammar) (n : Nat) :
    otherStatement g n = Tree.asStatement <$> anyValue g n := by
  unfold otherStatement anyValue callOrValue
  rw [map_bind]
  exact congrArg (_ >>= ·) (funext fun t => valueStatement_eq g n t)

theorem map_ok {r : Read Tree} {f : Tree → Tree} :
    (f <$> r) c = .ok (t, d) ↔ ∃ v, r c = .ok (v, d) ∧ t = f v := by
  rw [← bind_pure_comp, bind_apply]
  cases r c with
  | error e => simp
  | ok out =>
    obtain ⟨v, c'⟩ := out
    simp only [pure_apply, Except.ok.injEq, Prod.mk.injEq]
    constructor
    · rintro ⟨rfl, rfl⟩
      exact ⟨v, ⟨rfl, rfl⟩, rfl⟩
    · rintro ⟨_, ⟨rfl, rfl⟩, rfl⟩
      exact ⟨rfl, rfl⟩

/-- In front of an assignment sign the way of a statement comes to a path. -/
theorem climb_assign (hassign : g.operators.between? (.symbol .assign) = none)
    (hsign : c.current.kind = .symbol .assign) :
    (climb g (expression g (n + 1)) 0 (n + 1) t >>= callTail g (expression g (n + 1)) (n + 1)) c =
      .ok (t, c) := by
  rw [bind_apply, climb_ends (by simp [hsign]) (by rw [hsign, hassign])]
  change callTail g (expression g (n + 1)) (n + 1) t c = _
  unfold callTail
  rw [isAt_bind, hsign]
  rfl

include hname in
/-- What a statement is made of, if it assigns nothing. -/
theorem simple_iff (hassign : g.operators.between? (.symbol .assign) = none)
    (hd : d.current.kind ≠ .symbol .assign) (ht : t.isAlone = true) :
    simple g (n + 1) c = .ok (t, d) ↔
      ∃ v, lineValue g (n + 1) c = .ok (v, d) ∧ t = v.asStatement := by
  rw [simple_eq, isAt_bind]
  unfold lineValue
  rw [isAt_bind]
  by_cases hk : c.current.kind = .name
  swap
  · simp only [hk, decide_false, Bool.false_eq_true, if_false, otherStatement_eq]
    exact map_ok
  simp only [hk, decide_true, if_true]
  rw [isBefore_bind, isBefore_bind]
  by_cases hnext : (c.ahead.headD c.current).kind = .symbol .leftParen
  · simp only [hnext, decide_true, if_true, otherStatement_eq]
    exact map_ok
  simp only [hnext, decide_false, Bool.false_eq_true, if_false, pathStatement]
  rw [bind_apply, bind_apply]
  cases hpath : path g (expression g (n + 1)) (n + 1) c with
  | error e => simp
  | ok out =>
    obtain ⟨target, c'⟩ := out
    dsimp only
    by_cases hsign : c'.current.kind = .symbol .assign
    · constructor
      · intro h
        rw [afterPath_assign hsign, map_ok] at h
        obtain ⟨v, -, rfl⟩ := h
        cases ht
      · rintro ⟨v, h, rfl⟩
        rw [climb_assign hassign hsign] at h
        obtain ⟨rfl, rfl⟩ := Prod.mk.inj (Except.ok.inj h)
        exact absurd hsign hd
    · rw [afterPath_eq hname (isA_path hpath) hsign]
      exact map_ok

end

/-! ## A line and its statement -/

/-- At a name and the sign, a statement assigns the value behind the sign. -/
theorem simple_assigns {x sign : Token} {us : List Token} (hc : c.upcoming = x :: sign :: us)
    (hx : x.kind = .name) (hfree : g.isReserved x.literal = false)
    (hsign : sign.kind = .symbol .assign) :
    simple g (n + 1) c =
      (Tree.assignment (.of .path [.token x]) sign <$> anyValue g (n + 1)) c.next.next := by
  obtain rfl := Cursor.current_of_upcoming hc
  obtain rfl := Cursor.current_of_upcoming (Cursor.upcoming_next hc (by simp))
  have hnext : (c.ahead.headD c.current).kind ≠ .symbol .leftParen := by
    simp [Cursor.ahead_of_upcoming hc, hsign]
  have hpath : path g (expression g (n + 1)) (n + 1) c =
      .ok (.of .path [.token c.current], c.next) := by
    simp only [path, bind_apply, expectName, isAtName_apply, hx, decide_true, hfree, Bool.not_false,
      Bool.and_self, if_true, leaf_apply, fragments, isAt_apply, hsign, pure_apply,
      TokenKind.symbol.injEq, reduceCtorEq, decide_false, Bool.false_eq_true, if_false]
  rw [simple_eq, isAt_bind, hx, decide_eq_true rfl, if_pos rfl, isBefore_bind,
    decide_eq_false hnext, pathStatement]
  simp only [Bool.false_eq_true, if_false]
  rw [bind_apply, hpath, ← afterPath_assign hsign]

theorem statementBody_eq {stmt : Enclosing → Read Tree} {e : Enclosing}
    (hk : c.current.kind.opensStatement = false) :
    statementBody g stmt n e c = simpleStatement g (stmt e) n c := by
  unfold statementBody
  rw [kind_bind]
  generalize c.current.kind = k at hk ⊢
  cases k with
  | keyword w => cases w <;> first | rfl | cases hk
  | _ => rfl

/-- A story of one statement. -/
theorem storyStatements_single {stmt : Read Tree} :
    storyStatements stmt (n + 2) c = .ok ([t], d) ↔
      c.current.kind ≠ .eof ∧ stmt c = .ok (t, d) ∧ d.current.kind = .eof := by
  have hnil {c d : Cursor} :
      storyStatements stmt (n + 1) c = .ok ([], d) ↔ c = d ∧ d.current.kind = .eof := by
    unfold storyStatements
    rw [isAt_bind]
    by_cases he : c.current.kind = .eof
    · simp only [he, decide_true, if_true, pure_apply, Except.ok.injEq, Prod.mk.injEq, true_and]
      exact ⟨fun h => ⟨h, h ▸ he⟩, And.left⟩
    · simp only [he, decide_false, Bool.false_eq_true, if_false]
      constructor
      · rw [bind_apply]
        intro h
        split at h
        · rw [bind_apply] at h
          split at h <;> cases h
        · cases h
      · rintro ⟨rfl, h⟩
        exact absurd h he
  rw [storyStatements, isAt_bind]
  by_cases he : c.current.kind = .eof
  · simp [he, pure_apply]
  · simp only [he, decide_false, Bool.false_eq_true, if_false, ne_eq, not_false_eq_true, true_and]
    rw [bind_apply]
    cases stmt c with
    | error e => simp
    | ok out =>
      obtain ⟨t', c'⟩ := out
      dsimp only
      rw [bind_apply]
      constructor
      · intro h
        split at h
        · rename_i rest d' hrest
          obtain ⟨hout, rfl⟩ := Prod.mk.inj (Except.ok.inj h)
          obtain ⟨rfl, rfl⟩ := List.cons.inj hout
          obtain ⟨rfl, hd⟩ := hnil.1 hrest
          exact ⟨rfl, hd⟩
        · cases h
      · rintro ⟨h, hd⟩
        obtain ⟨rfl, rfl⟩ := Prod.mk.inj (Except.ok.inj h)
        rw [hnil.2 ⟨rfl, hd⟩]
        rfl

/-- What stays on its line and stops at a line end takes the whole line. -/
theorem takes_line {us ts after : List Token} {lineEnd : Token}
    (hc : c.upcoming = us ++ lineEnd :: after) (hus : ∀ u ∈ us, u.kind ≠ .newline)
    (he : lineEnd.kind = .newline) (ht : c.Takes ts d) (hts : ∀ u ∈ ts, u.kind.isLayout = false)
    (hd : d.current.kind = .newline) :
    d.upcoming = lineEnd :: after := by
  have hline : us ++ lineEnd :: after = ts ++ d.current :: d.ahead := hc.symm.trans ht.upcoming
  have hpast := congrArg (List.dropWhile fun u => u.kind ≠ .newline) hline
  rwa [List.dropWhile_append_of_pos (by simpa using hus), List.dropWhile_cons_of_neg (by simp [he]),
    List.dropWhile_append_of_pos, List.dropWhile_cons_of_neg (by simp [hd]), eq_comm] at hpast
  intro u hu
  rw [decide_eq_true_iff]
  intro hk
  simpa [hk] using hts u hu

/-- Behind a line without a keyword the story ends, and it has no block. -/
theorem simpleStatement_iff {stmt : Read Tree} {us after : List Token} {lineEnd close : Token}
    (hg : g.KeepsLayout) (hended : c.Ended) (hl : c.left < n)
    (hc : c.upcoming = us ++ lineEnd :: close :: after) (hus : ∀ u ∈ us, u.kind ≠ .newline)
    (he : lineEnd.kind = .newline) (hclose : close.kind = .eof) :
    (∃ d, simpleStatement g stmt n c = .ok (t, d) ∧ d.current.kind = .eof) ↔
      ∃ d, simple g n c = .ok (t, d) ∧ d.current.kind = .newline := by
  have hensures := simple_ensures hg hended hl
  unfold simpleStatement
  rw [Ensures] at hensures
  rw [bind_apply]
  cases hs : simple g n c with
  | error e => simp
  | ok out =>
    obtain ⟨read, d⟩ := out
    rw [hs] at hensures
    obtain ⟨ts, ht, hline⟩ := hensures
    dsimp only
    rw [isAt_bind]
    by_cases hk : d.current.kind = .newline
    · have hd := takes_line hc hus he ht (hline.flat hg) hk
      have hnext := Cursor.current_of_upcoming (Cursor.upcoming_next hd (by simp))
      simp [hk, bind_apply, take_apply, isAt_apply, pure_apply, hnext, hclose]
    · simp only [hk, decide_false]
      constructor
      · rintro ⟨d', h, -⟩
        cases h
      · rintro ⟨d', h, hd⟩
        obtain ⟨rfl, rfl⟩ := Prod.mk.inj (Except.ok.inj h)
        exact absurd hd hk

end Read

/-- Where the story ends, only its last token says. -/
theorem Cursor.missingEnd_append (ts us : List Token) (u : Token) :
    missingEnd (ts ++ u :: us) = missingEnd (u :: us) := by
  rw [missingEnd, missingEnd, List.getLast?_append_of_ne_nil _ (by simp)]

namespace Tree

variable {g : Grammar} {us close : List Token} {lineEnd : Token} {t : Tree}

/-- In front of a line that ends the story. -/
theorem upcoming_line (he : lineEnd.kind = .newline) (hclose : ∀ u ∈ close.head?, u.kind = .eof) :
    ∃ u after, u.kind = .eof ∧ ∀ us : List Token,
      (Cursor.start (us ++ lineEnd :: close)).upcoming = us ++ lineEnd :: u :: after := by
  cases close with
  | nil =>
    refine ⟨⟨.eof, "", ⟨lineEnd.line, lineEnd.endColumn⟩⟩, [], rfl, fun us => ?_⟩
    simp [Cursor.upcoming_start, Cursor.missingEnd, he]
  | cons u close =>
    refine ⟨u, close ++ Cursor.missingEnd (lineEnd :: u :: close), hclose u rfl, fun us => ?_⟩
    simp [Cursor.upcoming_start, Cursor.missingEnd_append]

/-- A story of one statement is what the reader of statements gives in front of it. -/
theorem ofTokens_single {ts : List Token}
    (hk : (Cursor.start ts).current.kind.opensStatement = false) :
    ofTokens g ts = .ok (.of .start [t]) ↔ (Cursor.start ts).current.kind ≠ .eof ∧
      ∃ d, Read.simpleStatement g (Read.statement g (2 * ts.length + 3) .story)
        (2 * ts.length + 3) (Cursor.start ts) = .ok (t, d) ∧ d.current.kind = .eof := by
  have hrestart : (Cursor.start ts).startStatement = .start ts := by
    unfold Cursor.start
    split <;> rfl
  have hstatement : Read.statement g (Read.bound ts) .story (Cursor.start ts) =
      Read.simpleStatement g (Read.statement g (2 * ts.length + 3) .story)
        (2 * ts.length + 3) (Cursor.start ts) := by
    change Read.statementBody g _ (2 * ts.length + 3) .story (Cursor.start ts).startStatement = _
    rw [hrestart, Read.statementBody_eq hk]
  have hsingle {d : Cursor} : Read.storyStatements (Read.statement g (Read.bound ts) .story)
      (Read.bound ts) (Cursor.start ts) = .ok ([t], d) ↔ _ := Read.storyStatements_single
  rw [hstatement] at hsingle
  unfold ofTokens Read.story
  rw [Read.bind_apply]
  constructor
  · intro h
    split at h
    · rename_i trees d hread
      obtain ⟨-, -, rfl⟩ := Tree.node.inj (Except.ok.inj h)
      obtain ⟨hk, hread, hd⟩ := hsingle.1 hread
      exact ⟨hk, d, hread, hd⟩
    · cases h
  · rintro ⟨hk, d, h, hd⟩
    rw [hsingle.2 ⟨hk, h, hd⟩]
    rfl

/-- A line without a keyword, and the end of the story behind it. -/
theorem ofTokens_line (hg : g.KeepsLayout) (hus : ∀ u ∈ us, u.kind ≠ .newline)
    (he : lineEnd.kind = .newline) (hclose : ∀ u ∈ close.head?, u.kind = .eof)
    (hstart : ∀ u ∈ us.head?, u.kind.opensStatement = false) :
    ofTokens g (us ++ lineEnd :: close) = .ok (.of .start [t]) ↔
      ∃ d, Read.simple g (2 * (us ++ lineEnd :: close).length + 3)
          (Cursor.start (us ++ lineEnd :: close)) = .ok (t, d) ∧ d.current.kind = .newline := by
  have hended := Cursor.ended_start (us ++ lineEnd :: close)
  have hleft := Cursor.left_start (us ++ lineEnd :: close)
  obtain ⟨u, after, hu, hup⟩ := upcoming_line he hclose
  have hc := hup us
  have hk : (Cursor.start (us ++ lineEnd :: close)).current.kind.opensStatement = false := by
    cases us with
    | nil =>
      rw [Cursor.current_of_upcoming hc, he]
      rfl
    | cons u us => exact Cursor.current_of_upcoming hc ▸ hstart u rfl
  rw [ofTokens_single hk, Read.simpleStatement_iff hg hended (by omega) hc hus he hu,
    and_iff_right_of_imp]
  -- the end of the story is no statement
  rintro ⟨d, h, hd⟩ heof
  have hensures := Read.simple_ensures hg hended
    (n := 2 * (us ++ lineEnd :: close).length + 3) (by omega)
  rw [Read.Ensures, h] at hensures
  obtain ⟨ts, ht, hline⟩ := hensures
  cases ts with
  | nil =>
    have hsame := (List.cons.inj ht.upcoming).1
    rw [hsame, hd] at heof
    cases heof
  | cons v ts =>
    have hflat := hline.flat hg v (by simp)
    rw [← Cursor.current_of_upcoming ht.upcoming, heof] at hflat
    cases hflat

end Tree

namespace Read

variable {g : Grammar} {n : Nat} {c c' d : Cursor} {v : Tree}

/-- In front of a value there is no keyword of a statement. -/
theorem anyValue_head (hg : g.KeepsLayout) (hr : g.Regular) {us after : List Token}
    (h : anyValue g n c = .ok (v, d)) (hc : c.Ended) (hl : c.left < n)
    (hup : c.upcoming = us ++ after) : ∀ u ∈ us.head?, u.kind.opensStatement = false := by
  have hreads := anyValue_reads hg n c hc hl
  rw [Ensures, h] at hreads
  obtain ⟨ts, ht, hd⟩ := hreads
  exact (hd.startsPlain hr rfl).head ⟨_, ht.upcoming.symm.trans hup⟩

/-- A value that is read up to the end of a line is the statement of that line. -/
theorem anyValue_simple (hg : g.KeepsLayout) (hname : g.operators.between? .name = none)
    (hassign : g.operators.between? (.symbol .assign) = none) (hc : c.Ended) (hl : c.left < n + 1)
    (hc' : c'.upcoming = c.upcoming) (k : Nat) :
    (∃ d, anyValue g (k + (n + 1)) c' = .ok (v, d) ∧ d.current.kind = .newline) ↔
      ∃ d, simple g (n + 1) c = .ok (v.asStatement, d) ∧ d.current.kind = .newline := by
  have hreads := anyValue_reads hg (n + 1) c hc hl
  have hline := anyValue_lasts_lineValue (g := g) (k := 0) (n + 1)
  rw [Nat.zero_add] at hline
  constructor
  · rintro ⟨d', h, hd'⟩
    obtain ⟨d, h, hd⟩ := (anyValue_steps (e := .story) (n + 1)).walks.lasts.ok_of hreads h hc'
    obtain ⟨d₁, h, hd₁⟩ := hline.of_ok h rfl
    have hsame := (Cursor.same_of_upcoming (hd₁.trans hd.symm)).1
    have hk : d₁.current.kind = .newline := hsame ▸ hd'
    exact ⟨d₁, (simple_iff hname hassign (by simp [hk]) v.isAlone_asStatement).2 ⟨v, h, rfl⟩, hk⟩
  · rintro ⟨d, h, hd⟩
    obtain ⟨v', h, hv⟩ := (simple_iff hname hassign (by simp [hd]) v.isAlone_asStatement).1 h
    obtain rfl := Tree.asStatement_injective hv
    obtain ⟨d₁, h, hd₁⟩ := hline.ok_of hreads h rfl
    obtain ⟨d', h, hd'⟩ := (anyValue_steps (e := .story) (k := k) (n + 1)).walks.lasts.of_ok h hc'
    refine ⟨d', h, ?_⟩
    rw [(Cursor.same_of_upcoming (hd'.trans hd₁.symm)).1, hd]

end Read

namespace Tree

variable {g : Grammar} {e close : List Token} {x sign lineEnd : Token} {v t : Tree}

section

variable (hg : g.KeepsLayout) (hx : x.kind = .name) (hfree : g.isReserved x.literal = false)
  (hsign : sign.kind = .symbol .assign) (hline : ∀ u ∈ e, u.kind ≠ .newline)
  (he : lineEnd.kind = .newline) (hclose : ∀ u ∈ close.head?, u.kind = .eof)

include hg hx hfree hsign hline he hclose

/-- What a line gives that assigns to a name. -/
theorem ofTokens_assigned :
    ofTokens g (x :: sign :: (e ++ lineEnd :: close)) = .ok (.of .start [t]) ↔
      ∃ v d, Read.anyValue g (4 + (2 * (e ++ lineEnd :: close).length + 3))
          (Cursor.start (x :: sign :: (e ++ lineEnd :: close))).next.next = .ok (v, d) ∧
        d.current.kind = .newline ∧ t = assignment (.of .path [.token x]) sign v := by
  have hus : ∀ u ∈ x :: sign :: e, u.kind ≠ .newline := by simpa [hx, hsign] using hline
  have hstory := ofTokens_line (t := t) hg hus he hclose (by simp [hx, TokenKind.opensStatement])
  obtain ⟨u, after, -, hup⟩ := upcoming_line he hclose
  have hc : (Cursor.start (x :: sign :: (e ++ lineEnd :: close))).upcoming =
      x :: sign :: (e ++ lineEnd :: u :: after) := hup (x :: sign :: e)
  have hsteps : 2 * (x :: sign :: (e ++ lineEnd :: close)).length + 3 =
      4 + (2 * (e ++ lineEnd :: close).length + 2) + 1 := by
    simp only [List.length_cons]
    omega
  rw [List.cons_append, List.cons_append] at hstory
  rw [hstory, hsteps, Read.simple_assigns hc hx hfree hsign]
  simp only [Read.map_ok]
  constructor
  · rintro ⟨d, ⟨v, h, rfl⟩, hd⟩
    exact ⟨v, d, h, hd, rfl⟩
  · rintro ⟨v, d, h, hd, rfl⟩
    exact ⟨d, ⟨v, h, rfl⟩, hd⟩

omit hx hfree hsign hline he hclose in
/-- A line that is a value alone does not start with a keyword of a statement. -/
theorem alone_head (hr : g.Regular) {us : List Token}
    (h : ofTokens g (e ++ us) = .ok (.of .start [t])) (ht : t.isAlone = true) : ∀ u ∈ e.head?, u.kind.opensStatement = false := by
  obtain ⟨trees, htrees, hd⟩ := ofTokens_derives hg h
  obtain ⟨-, -, rfl⟩ := Tree.node.inj htrees
  have hp := List.takeWhile_prefix (fun u : Token => decide (u.kind ≠ .eof)) (l := e ++ us)
  generalize (e ++ us).takeWhile (fun u : Token => decide (u.kind ≠ .eof)) = taken at hd hp
  cases hd with
  | statements first others => exact (first.alone_startsPlain hr ht).append.head hp

/-- A value is assigned by a line if, and only if, alone it is a statement. -/
theorem ofTokens_assigned_iff (hr : g.Regular) (hname : g.operators.between? .name = none)
    (hassign : g.operators.between? (.symbol .assign) = none) :
    ofTokens g (x :: sign :: (e ++ lineEnd :: close)) =
        .ok (.of .start [assignment (.of .path [.token x]) sign v]) ↔
      ofTokens g (e ++ lineEnd :: close) = .ok (.of .start [v.asStatement]) := by
  obtain ⟨u, after, -, hup⟩ := upcoming_line he hclose
  have hc : (Cursor.start (x :: sign :: (e ++ lineEnd :: close))).upcoming =
      x :: sign :: (e ++ lineEnd :: u :: after) := hup (x :: sign :: e)
  have hvalue := Cursor.upcoming_next (Cursor.upcoming_next hc (by simp)) (by simp)
  have hsame := hvalue.trans (hup e).symm
  have hended := Cursor.ended_start (e ++ lineEnd :: close)
  have hleft := Cursor.left_start (e ++ lineEnd :: close)
  have hreads := Read.anyValue_simple (v := v) hg hname hassign hended
    (n := 2 * (e ++ lineEnd :: close).length + 2) (by omega) hsame 4
  rw [ofTokens_assigned hg hx hfree hsign hline he hclose]
  constructor
  · rintro ⟨v', d, h, hd, hv⟩
    obtain rfl : v = v' := by simpa [assignment] using hv
    have hstart := Read.anyValue_head hg hr h (hended.congr hsame)
      (by rw [Cursor.left, (Cursor.same_of_upcoming hsame).2, ← Cursor.left]; omega) hvalue
    obtain ⟨d, h, hd⟩ := hreads.1 ⟨d, h, hd⟩
    exact (ofTokens_line hg hline he hclose hstart).2 ⟨d, h, hd⟩
  · intro h
    obtain ⟨d, h, hd⟩ := hreads.2
      ((ofTokens_line hg hline he hclose (alone_head hg hr h v.isAlone_asStatement)).1 h)
    exact ⟨v, d, h, hd, rfl⟩

omit hx hfree hsign in
/-- Alone on a line, calls and expressions are statements of a value. -/
theorem eq_asStatement (hr : g.Regular) (hname : g.operators.between? .name = none)
    (hassign : g.operators.between? (.symbol .assign) = none)
    (h : ofTokens g (e ++ lineEnd :: close) = .ok (.of .start [t])) (ht : t.isAlone = true) :
    ∃ v : Tree, t = v.asStatement := by
  obtain ⟨d, h, hd⟩ := (ofTokens_line hg hline he hclose (alone_head hg hr h ht)).1 h
  obtain ⟨v, -, hv⟩ := (Read.simple_iff hname hassign (by simp [hd]) ht).1 h
  exact ⟨v, hv⟩

end

/-- The value of an assignment is read as the statement is that the value is
alone, and such a statement as the assignment of its value. -/
theorem ofTokens_assigned_alone (hx : x.kind = .name)
    (hfree : Grammar.builtIn.isReserved x.literal = false) (hsign : sign.kind = .symbol .assign)
    (hline : ∀ u ∈ e, u.kind ≠ .newline) (he : lineEnd.kind = .newline)
    (hclose : ∀ u ∈ close.head?, u.kind = .eof) :
    (∀ t, ofTokens .builtIn (x :: sign :: (e ++ lineEnd :: close)) = .ok (.of .start [t]) →
      ∃ v, t = assignment (.of .path [.token x]) sign v ∧
        ofTokens .builtIn (e ++ lineEnd :: close) = .ok (.of .start [v.asStatement])) ∧
    (∀ t, ofTokens .builtIn (e ++ lineEnd :: close) = .ok (.of .start [t]) → t.isAlone = true →
      ∃ v, t = v.asStatement ∧ ofTokens .builtIn (x :: sign :: (e ++ lineEnd :: close)) =
        .ok (.of .start [assignment (.of .path [.token x]) sign v])) := by
  have hg := Grammar.keepsLayout_builtIn
  have hr := Grammar.regular_builtIn
  have hname : Grammar.builtIn.operators.between? .name = none := by decide
  have hassign : Grammar.builtIn.operators.between? (.symbol .assign) = none := by decide
  have hiff (v : Tree) := ofTokens_assigned_iff (v := v) hg hx hfree hsign hline he hclose hr hname
    hassign
  refine ⟨fun t h => ?_, fun t h ht => ?_⟩
  · obtain ⟨v, -, -, -, rfl⟩ := (ofTokens_assigned hg hx hfree hsign hline he hclose).1 h
    exact ⟨v, rfl, (hiff v).1 h⟩
  · obtain ⟨v, rfl⟩ := eq_asStatement hg hline he hclose hr hname hassign h ht
    exact ⟨v, rfl, (hiff v).2 h⟩

/-- A call of a service, which is a statement itself. -/
theorem ofTokens_assigned_alone_call :
    let token (kind : TokenKind) (literal : String) : Token := ⟨kind, literal, .first⟩
    let x := token .name "x"
    let sign := token (.symbol .assign) "="
    let e := [token .name "log", token .name "info"]
    let lineEnd := token .newline "\n"
    let call := Tree.of .serviceCall
      [.of .path [.token (token .name "log")], .token (token .name "info"), .of .arguments []]
    ofTokens .builtIn (x :: sign :: (e ++ [lineEnd])) =
        .ok (.of .start [assignment (.of .path [.token x]) sign call]) ∧
      ofTokens .builtIn (e ++ [lineEnd]) = .ok (.of .start [call.asStatement]) := by
  intro token x sign e lineEnd call
  have h : ofTokens .builtIn (e ++ [lineEnd]) = .ok (.of .start [call]) := by rfl
  obtain ⟨hassigned, halone⟩ := @ofTokens_assigned_alone e [] x sign lineEnd rfl (by decide) rfl
    (by decide) rfl (by decide)
  obtain ⟨v, hv, hx⟩ := halone _ h rfl
  obtain ⟨v', hv', hback⟩ := hassigned _ hx
  obtain rfl : v = v' := by simpa [assignment] using hv'
  have hcall : v = call := asStatement_injective hv.symm
  rw [hcall] at hx hback
  exact ⟨hx, hback⟩

end Tree

end StoryLang
