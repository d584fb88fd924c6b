/-
Reading two stories that differ in one place.

After its last token a statement is at the start of a line again, and so a
whole story can be read from line to line.

Where reading a story stops, the fault names kinds of tokens that may stand
there. If the token there is replaced by one of such a kind, the two stories
fork at that place, and the second one is read past it. There are two kinds of
places where the reader asks for more than it allows.
-/
import StoryLang.Proofs.Tree.Fork.Line
import StoryLang.Proofs.Tree.Stops
import StoryLang.Proofs.Tree.Yield

/-! ## Statements and stories -/

namespace StoryLang.Read

variable {α β : Type} {g : Grammar} {F : Fork g} {Q : Prop} {Φ Χ Ψ : List Token → Prop}
  {k : TokenKind} {c : Cursor}

/-! ## Rows of statements -/

/-- At the end of the story nothing else is asked for. -/
theorem forks_ifEof (ks : List TokenKind) {x y : Read β} (hforward : Forward x)
    (hx : ∀ c, c.current.kind = .eof →
      ∃ f, x c = .error (.inTokens f) ∧ f.token = c.current ∧ f.expected = ks)
    (hks : Φ [] → F.other.kind ∉ ks) (hy : Forks F Q Φ Ψ y) :
    Forks F Q Φ Ψ (isAt .eof >>= fun b => if b = true then x else y) := by
  refine ⟨forward_look fun _ => .ite hforward hy.forward, fun {pre c d} hat hpre => ?_⟩
  cases pre with
  | nil =>
    obtain ⟨hone, -, hother, -⟩ := hat.here
    by_cases hk' : F.other.kind = .eof
    · exact .strange (by rw [hk']; decide)
    by_cases hk : F.one.kind = .eof
    · obtain ⟨f, hf, -, hexpected⟩ := hx c (by rwa [hone])
      rw [ifAt_eq (by rwa [hone]), hf]
      exact .unasked (hexpected ▸ hks hpre)
    · rw [ifAt_ne (by rwa [hone]), ifAt_ne (by rwa [hother])]
      exact hy.forked hat hpre
  | cons t pre =>
    obtain ⟨hcurrent, hcurrent', hline, -, -⟩ := hat.there
    by_cases hk : t.kind = .eof
    · obtain ⟨f, hf, htoken, -⟩ := hx c (by rwa [hcurrent])
      rw [ifAt_eq (by rwa [hcurrent]), hf]
      exact .early (by rwa [htoken, hcurrent])
    · rw [ifAt_ne (by rwa [hcurrent]), ifAt_ne (by rwa [hcurrent'])]
      exact hy.forked hat hpre

/-- Statements and what follows them. -/
theorem statements_bind (stmt : Read Tree) (n : Nat) (f : List Tree → Read β) :
    statements stmt (n + 1) >>= f = isAt .dedent >>= fun a =>
      if a = true then f [] else isAt .eof >>= fun b =>
        if b = true then f [] else
          stmt >>= fun first => statements stmt n >>= fun rest => f (first :: rest) := by
  simp only [statements, bind_assoc]
  refine congrArg (isAt .dedent >>= ·) (funext fun a => ?_)
  cases a
  · refine congrArg (isAt .eof >>= ·) (funext fun b => ?_)
    cases b <;> simp
  · funext c
    simp [bind_apply, isAt_apply]

theorem expect_stuck (h : c.current.kind ≠ k) :
    expect g k c = .error (.inTokens (c.stuck g [k]).fault) := by
  simp [expect, bind_apply, isAt_apply, unexpected_apply, h]

/-- A row of statements up to the end of its block. -/
theorem statements_forks {stmt : Read Tree} (hs : Forks F False F.Starts F.Starts stmt) :
    ∀ n (v : List Tree → Tree), Forks F False F.Starts F.Starts (do
      let body ← statements stmt n
      let _ ← expect g .dedent
      return v body)
  | 0, _ => .tooManySteps
  | n + 1, v => by
    have hdedent : Opening F .dedent False F.Starts F.Starts
        (expect g .dedent >>= fun _ => pure (v [])) :=
      (opening_expect (by decide) (Fork.step_starts rfl)).bindPlain fun _ => .pure fun _ h => h
    rw [statements_bind]
    refine .ifAtElse hdedent (forks_ifEof [.dedent] hdedent.forward (fun c hk => ?_)
      (fun h => by simpa using h.2) ?_)
    · refine ⟨_, by rw [bind_apply, expect_stuck (by simp [hk])], ?_, ?_⟩ <;> simp [Cursor.stuck]
    · refine (hs.mono (fun _ q => q) (fun _ h => h.1) fun _ h => h).bindPlain fun first => ?_
      exact statements_forks hs n fun body => v (first :: body)

/-! ## Blocks -/

section Blocks

variable {stmt : Read Tree} (hs : Forks F False F.Starts F.Starts stmt)

include hs

theorem indented_opening (n : Nat) : Opening F .indent False Φ F.Starts (indented g stmt n) :=
  .within <| (opening_expect (by decide) (Fork.step_starts rfl)).bindPlain fun _ =>
    statements_forks hs n _

theorem indented_forks (n : Nat) : Forks F False Φ F.Starts (indented g stmt n) :=
  .within <| (Forks.expect (by decide) (Fork.step_starts rfl)).bindPlain fun _ =>
    statements_forks hs n _

theorem block_forks (n : Nat) : Forks F Q Φ F.Starts (block g stmt n) :=
  (Forks.expect (by decide) (Fork.step_starts rfl)).bindPlain fun _ =>
    (indented_forks hs n).mono (fun _ => False.elim) (fun _ h => h) fun _ h => h

theorem ends_block (n : Nat) : Ends (block g stmt n) :=
  ends_expect.bind fun _ => (indented_forks (Φ := fun _ => True) hs n).forward

/-! ## Statements with blocks -/

variable {P : Nat → List Token → Prop}

/-- A condition and its block. -/
theorem conditional_forks (hP : F.Tracks P) (hg : g.Regular) {f : Tree → Tree → Read β}
    (hf : ∀ a b, Forks F False F.Starts Ψ (f a b)) (n : Nat) :
    Forks F False (P 0) Ψ (condition g n >>= fun a => block g stmt n >>= f a) := by
  refine (condition_forks hP hg n).bindEnd
    (fun _ => (block_forks hs n).bindPlain fun _ => hf _ _) ?_
  exact fun a => (ends_block hs n).bind fun b => (hf a b).forward

/-- The last part of a statement is a block. -/
theorem lastBlock_forks {v : Tree → α} (n : Nat) :
    Forks F False Φ F.Starts (block g stmt n >>= fun body => pure (v body)) :=
  (block_forks hs n).bindPlain fun _ => .pure fun _ h => h

theorem ends_lastBlock {v : Tree → α} (n : Nat) :
    Ends (block g stmt n >>= fun body => pure (v body)) :=
  (ends_block hs n).bind fun _ => forward_pure _

theorem branches_forks (hF : F.Fair) (hg : g.Regular) (bound : Nat) :
    ∀ n, Forks F False F.Starts F.Starts (branches g stmt bound n)
  | 0 => .tooManySteps
  | n + 1 => by
    unfold branches
    refine .ifAt (.ofLine hF fun P hP => .start ?_) (.pure fun _ h => h)
    refine (opening_leaf (by decide) (hP.plain rfl)).bindPlain fun _ => ?_
    refine .ifAt ((opening_leaf (by decide) (hP.plain rfl)).bindPlain fun _ => ?_)
      (lastBlock_forks hs bound)
    exact conditional_forks hs hP.toTracks hg (fun _ _ =>
      (branches_forks hF hg bound n).bindPlain fun _ => .pure fun _ h => h) bound

theorem ifBlock_opening (hF : F.Fair) (hg : g.Regular) (n : Nat) :
    Opening F (.keyword .ifWord) False F.Starts F.Starts (ifBlock g stmt n) :=
  .ofLine hF fun P hP => (opening_leaf (by decide) (hP.plain rfl)).bindPlain fun _ =>
    conditional_forks hs hP.toTracks hg (fun _ _ =>
      (branches_forks hs hF hg n n).bindPlain fun _ => .pure fun _ h => h) n

theorem whileBlock_opening (hF : F.Fair) (hg : g.Regular) (n : Nat) :
    Opening F (.keyword .whileWord) False F.Starts F.Starts (whileBlock g stmt n) :=
  .ofLine hF fun P hP => (opening_leaf (by decide) (hP.plain rfl)).bindPlain fun _ =>
    conditional_forks hs hP.toTracks hg (fun _ _ => .pure fun _ h => h) n

/-- What a `foreach` goes over is followed by names. -/
theorem foreachBlock_opening (hF : F.Fair) (hg : g.Regular) (n : Nat) :
    Opening F (.keyword .foreachWord) False F.Starts F.Starts (foreachBlock g stmt n) := by
  refine .ofStart fun start hstart => ?_
  have hP := hstart.tracks hF
  have hover := hP.goesOver
  have hword : F.Step (.keyword .foreachWord) (· = start) (Fork.GoesOver g start 0) := by
    rintro t pre hk hf rfl
    exact hover.plain rfl t pre hk hf ⟨Fork.since_start, by simp [hk], id⟩
  have hvalue : Forks F False (Fork.GoesOver g start 0) (Fork.Since start 0) (condition g n) :=
    (condition_forks hover hg n).mono (hstart.not_goesOver hF) (fun _ h => h) fun _ h => h.1
  refine (opening_leaf (by decide) hword).bindPlain fun _ => hvalue.bindPlain fun _ => ?_
  refine .unlessAt ?_ (by decide) (by simp)
  exact (output_opening hP.toTracks hP.outputLast n).bindPlain fun _ => lastBlock_forks hs n

theorem catchBlock_opening (hF : F.Fair) (n : Nat) :
    Opening F (.keyword .catchWord) False F.Starts F.Starts (catchBlock g stmt n) := by
  refine .ofLine hF fun P hP => .start ?_
  refine (opening_leaf (by decide) (hP.plain rfl)).bindPlain fun _ => ?_
  refine .ifAt ((output_opening hP.toTracks hP.outputLast n).bindPlain fun _ => ?_) ?_ <;>
    exact lastBlock_forks hs n

theorem finallyBlock_opening (hF : F.Fair) (n : Nat) :
    Opening F (.keyword .finallyWord) False F.Starts F.Starts (finallyBlock g stmt n) :=
  .ofLine hF fun P hP => .start <| (opening_leaf (by decide) (hP.plain rfl)).bindPlain fun _ =>
    lastBlock_forks hs n

theorem tryBlock_opening (hF : F.Fair) (n : Nat) :
    Opening F (.keyword .tryWord) False F.Starts F.Starts (tryBlock g stmt n) := by
  have hfinally {ts ts' : List Tree} {v : Tree → List Tree} :
      Forks F False F.Starts F.Starts (isAt (.keyword .finallyWord) >>= fun b =>
        if b = true then finallyBlock g stmt n >>= fun t => pure (Tree.of .tryBlock (ts ++ v t))
        else pure (Tree.of .tryBlock ts')) :=
    .ifAt ((finallyBlock_opening hs hF n).bindPlain fun _ => .pure fun _ h => h)
      (.pure fun _ h => h)
  unfold tryBlock
  simp only [pure_bind]
  refine .ofLine hF fun P hP => (opening_leaf (by decide) (hP.plain rfl)).bindPlain fun _ => ?_
  refine (block_forks hs n).bindPlain fun _ => ?_
  exact .ifAt ((catchBlock_opening hs hF n).bindPlain fun _ => hfinally) hfinally

omit hs in
theorem parameters_forks (hP : F.Tracks P) (bound : Nat) :
    ∀ n, Forks F False (P 0) (P 0) (parameters g bound n)
  | 0 => .tooManySteps
  | n + 1 => by
    unfold parameters
    refine .ifAt ((opening_expectName (hP.plain rfl)).bindPlain fun _ => ?_) (.pure fun _ h => h)
    refine (Forks.expect (by decide) (hP.plain rfl)).bindPlain fun _ => ?_
    refine (types_forks hP bound 0).1.bindPlain fun _ => ?_
    exact (parameters_forks hP bound n).bindPlain fun _ => .pure fun _ h => h

omit hs in
theorem returnType_forks (hP : F.Tracks P) (n : Nat) :
    Forks F False (P 0) (P 0) (returnType g n) :=
  .ifAt ((opening_leaf (by decide) (hP.plain rfl)).bindPlain fun _ =>
    (types_forks hP n 0).1.bindPlain fun _ => .pure fun _ h => h) (.pure fun _ h => h)

theorem functionBlock_opening (hF : F.Fair) (n : Nat) :
    Opening F (.keyword .functionWord) False F.Starts F.Starts (functionBlock g stmt n) :=
  .ofLine hF fun P hP => (opening_leaf (by decide) (hP.plain rfl)).bindPlain fun _ =>
    (Forks.expectName (hP.plain rfl)).bindPlain fun _ =>
    (parameters_forks hP.toTracks n n).bindPlain fun _ =>
    (returnType_forks hP.toTracks n).bindPlain fun _ => lastBlock_forks hs n

theorem whenBlock_opening (hF : F.Fair) (hg : g.Regular) (n : Nat) :
    Opening F (.keyword .whenWord) False F.Starts F.Starts (whenBlock g stmt n) := by
  refine .ofLine hF fun P hP => ?_
  have hv := expression_forks hP.toTracks hg n
  refine (opening_leaf (by decide) (hP.plain rfl)).bindPlain fun _ => ?_
  refine (path_forks hP.toTracks hv n).bindPlain fun _ => ?_
  refine (Forks.expectName (hP.plain rfl)).bindPlain fun _ => ?_
  refine (arguments_forks hP.toTracks hv n).bindEnd
    (fun _ => .ifAt ?_ (lastBlock_forks hs n)) fun _ => ?_
  · refine ((output_opening hP.toTracks hP.outputLast n).mono fun _ h => h.1).bindPlain fun _ => ?_
    exact lastBlock_forks hs n
  · exact ends_ifAt (by decide) (ends_lastBlock hs n)

/-! ## Statements -/

/-- The end of the line of a statement, and the block of a call. -/
def ended (g : Grammar) (stmt : Read Tree) (n : Bound) (read : Tree) : Read Tree := do
  if !(← isAt .newline) then
    unexpected g (.newline :: if read.isA .expressionStatement then [.symbol .assign] else [])
  let _ ← take
  if read.isA .serviceCall && (← isAt .indent) then
    return withPart read (← indented g stmt n)
  else return read

theorem ended_forks (n : Nat) (read : Tree)
    (h : Φ [] → read.isA .expressionStatement = true → F.other.kind ≠ .symbol .assign) :
    Forks F False Φ F.Starts (ended g stmt n read) := by
  have hline : Opening F .newline False Φ F.Starts (take >>= fun _ => isAt .indent >>= fun b =>
      if (read.isA .serviceCall && b) = true then
        indented g stmt n >>= fun body => pure (withPart read body)
      else pure read) := by
    refine (opening_take (by decide) (Fork.step_starts rfl)).bindPlain fun _ => ?_
    cases read.isA .serviceCall with
    | true =>
      simp only [Bool.true_and]
      exact .ifAt ((indented_opening hs n).bindPlain fun _ => .pure fun _ h => h)
        (.pure fun _ h => h)
    | false =>
      simp only [Bool.false_and, Bool.false_eq_true, if_false]
      exact ⟨forward_look fun _ => forward_pure _, fun hat hpre => .same hat hpre⟩
  refine .unlessAt hline ?_ fun hpre k' hk' hne => ?_
  · split <;> decide
  · split at hk'
    · rename_i hread
      obtain rfl : k' = .symbol .assign := by simpa [hne] using hk'
      exact h hpre hread
    · exact absurd (by simpa using hk') hne

theorem ends_ended (n : Nat) (read : Tree) : Ends (ended g stmt n read) := by
  have hrest : Forward (isAt .indent >>= fun b => if (read.isA .serviceCall && b) = true then
      indented g stmt n >>= fun body => pure (withPart read body) else pure read) :=
    forward_look fun _ => .ite ((indented_forks (Φ := fun _ => True) hs n).forward.bind
      fun _ => forward_pure _) (forward_pure _)
  intro c hk hc
  unfold ended
  rw [unlessAt_eq, ifAt_eq hk]
  exact (within_next (v := id) (fun _ => rfl) hc).bind fun _ => hrest

theorem simpleStatement_forks (hF : F.Fair) (hg : g.Regular) (n : Nat) :
    Forks F False F.Starts F.Starts (simpleStatement g stmt n) := by
  have hended read := ended_forks (Φ := fun _ => False) hs n read fun h => h.elim
  refine ⟨?_, fun {start c d} hat hstart => ?_⟩
  · have hP := @Fork.Starts.tracks g F (lastLine F.front) hF fun _ => rfl
    exact (simple_forks hP hg n).forward.bind fun read => (hended read).forward
  by_cases hassign : F.other.kind = .symbol .assign ∧ ∃ p, Derives g .path start [p]
  · obtain ⟨hk, p, hd⟩ := hassign
    exact (simple_assigned hk hg hd hat n).bind hended False.elim
  · refine ((simple_forks (hstart.tracks hF) hg n).forked hat Fork.since_start).bind
      (fun read => ended_forks hs n read ?_) fun _ read => .inr (ends_ended hs n read)
    rintro ⟨ts, rfl, hflat, -⟩ - hk
    rw [List.append_nil] at hstart hassign
    exact hassign ⟨hk, hstart hflat ▸ hF.assignment hk⟩

end Blocks

theorem statementBody_forks (hF : F.Fair) (hg : g.Regular) {stmt : Enclosing → Read Tree}
    (hs : ∀ e, Forks F False F.Starts F.Starts (stmt e)) (n : Nat) (e : Enclosing) :
    Forks F False F.Starts F.Starts (statementBody g stmt n e) := by
  refine forks_byKind (y := simpleStatement g (stmt e) n) (fun k => ?_)
    (simpleStatement_forks (hs e) hF hg n)
  split
  · exact .inl (ifBlock_opening (hs e) hF hg n)
  · exact .inl (foreachBlock_opening (hs e.loop) hF hg n)
  · exact .inl (whileBlock_opening (hs e.loop) hF hg n)
  · exact .inl (tryBlock_opening (hs e) hF n)
  · exact .inl (functionBlock_opening (hs .function) hF n)
  · exact .inl (whenBlock_opening (hs e) hF hg n)
  · exact .inl (returnStatement_opening hF hg e n)
  · exact .inl (loopJump_opening hF e (by decide) _ _)
  · exact .inl (loopJump_opening hF e (by decide) _ _)
  · exact .inl (jumpWithValue_opening hF hg rfl _ n)
  · exact .inl (importStatement_opening hF)
  · exact .inr rfl

theorem statement_forks (hF : F.Fair) (hg : g.Regular) :
    ∀ n e, Forks F False F.Starts F.Starts (statement g n e)
  | 0, _ => .tooManySteps
  | n + 1, e => .start (statementBody_forks hF hg (statement_forks hF hg n) n e)

/-- Statements up to the end of the story and what follows them. -/
theorem storyStatements_bind (stmt : Read Tree) (n : Nat) (f : List Tree → Read β) :
    storyStatements stmt (n + 1) >>= f = isAt .eof >>= fun b =>
      if b = true then f [] else
        stmt >>= fun first => storyStatements stmt n >>= fun rest => f (first :: rest) := by
  simp only [storyStatements, bind_assoc]
  refine congrArg (isAt .eof >>= ·) (funext fun b => ?_)
  cases b <;> simp

theorem storyStatements_forks {stmt : Read Tree} (hs : Forks F False F.Starts F.Starts stmt) :
    ∀ n, Forks F False F.Starts Ψ (storyStatements stmt n >>= fun _ => (unexpected g [] : Read α))
  | 0 => .tooManySteps
  | n + 1 => by
    rw [storyStatements_bind]
    refine forks_ifEof [] (forward_unexpected (by simp)) (fun c _ => ⟨_, rfl, ?_, ?_⟩)
      (by simp) (hs.bindPlain fun _ => storyStatements_forks hs n)
    · simp [Cursor.stuck]
    · simp [Cursor.stuck]

end StoryLang.Read

/-! ## What an error asks for -/

namespace StoryLang

/-! ## What is asked for, but not allowed -/

/-- The line so far is a path. -/
def isPathLine (g : Grammar) (line : List Token) : Bool :=
  line.head?.map Token.kind = some .name && (Tree.ofFragment g line).toOption.any (·.isA .path)

/-- A token of the kind `k` is not allowed behind `front` and in place of one of the kind `t`, but
asked for: a value that cannot be assigned to is not followed by an assignment, and an operator that
must not be in a row does not end the line in brackets, or in what a `foreach` goes over. -/
def Misleading (g : Grammar) (front : List Token) (t k : TokenKind) : Prop :=
  k = .symbol .assign ∧ isPathLine g (lastLine front) = false ∨
    k = .newline ∧ (g.operators.between? t).any (·.grouping = .none) = true ∧
      (Stuck.openBrackets [] (lastLine front) ≠ [] ∨
        (lastLine front).head?.map Token.kind = some (.keyword .foreachWord) ∧
          castsOnly g 0 (lastLine front) = true)

/-! ## The same tokens elsewhere -/

/-- The same token, maybe elsewhere. -/
def Token.Elsewhere (t t' : Token) : Prop := t'.kind = t.kind ∧ t'.literal = t.literal

section Elsewhere

variable {g : Grammar} {ts ts' : List Token} (h : List.Forall₂ Token.Elsewhere ts ts')

include h

theorem head?_elsewhere : ts'.head?.map Token.kind = ts.head?.map Token.kind := by
  cases h with
  | nil => rfl
  | cons ht => simp [ht.1]

theorem lastLine_elsewhere : List.Forall₂ Token.Elsewhere (lastLine ts) (lastLine ts') := by
  have htake {us us' : List Token} (h : List.Forall₂ Token.Elsewhere us us') :
      List.Forall₂ Token.Elsewhere (us.takeWhile fun t => !t.kind.isLayout)
        (us'.takeWhile fun t => !t.kind.isLayout) := by
    induction h with
    | nil => exact .nil
    | cons ht _ ih =>
      simp only [List.takeWhile_cons, ht.1]
      split
      · exact .cons ht ih
      · exact .nil
  exact List.rel_reverse (htake (List.rel_reverse h))

theorem openBrackets_elsewhere (stack : List Symbol) :
    Stuck.openBrackets stack ts' = Stuck.openBrackets stack ts := by
  induction h generalizing stack with
  | nil => rfl
  | cons ht _ ih =>
    unfold Stuck.openBrackets
    rw [ht.1]
    split <;> exact ih _

theorem castsOnly_elsewhere (n : Nat) : castsOnly g n ts' = castsOnly g n ts := by
  induction h generalizing n with
  | nil => rfl
  | @cons t t' us us' ht hts ih =>
    have htype : us'.head?.any g.namesType = us.head?.any g.namesType := by
      cases hts with
      | nil => rfl
      | cons hu => simp [Grammar.namesType, hu.1, hu.2]
    simp only [castsOnly, ht.1, htype, ih]

end Elsewhere

theorem Read.setting_elsewhere (g : Grammar) : Setting Token.Elsewhere (fun _ _ => True) g g where
  tokens := { kind := fun _ _ h => h.1, name := fun _ _ h _ => h.2 }
  operators := rfl
  castPrecedence := rfl
  reserved := rfl
  typeNames := rfl
  stuck _ _ := trivial
  bounded := trivial

theorem start_elsewhere {ts ts' : List Token} (h : List.Forall₂ Token.Elsewhere ts ts') :
    (Cursor.start ts).Like Token.Elsewhere (Cursor.start ts') := by
  have hend : List.Forall₂ Token.Elsewhere (Cursor.missingEnd ts) (Cursor.missingEnd ts') := by
    unfold Cursor.missingEnd
    rcases rel_cases (rel_getLast? h) with ⟨he, he'⟩ | ⟨t, t', he, he', ht⟩
    · rw [he, he']
      exact .cons ⟨rfl, rfl⟩ .nil
    · simp only [he, he', ht.1]
      split
      · exact .nil
      · exact .cons ⟨rfl, rfl⟩ .nil
  have hall : List.Forall₂ Token.Elsewhere (ts ++ Cursor.missingEnd ts)
      (ts' ++ Cursor.missingEnd ts') :=
    List.rel_append h hend
  unfold Cursor.start
  generalize ts ++ Cursor.missingEnd ts = us, ts' ++ Cursor.missingEnd ts' = us' at hall ⊢
  cases hall with
  | nil => exact ⟨⟨rfl, rfl⟩, .nil, .nil, rfl⟩
  | cons ht hts => exact ⟨ht, hts, .nil, rfl⟩

/-- A value is read from the same tokens, wherever they are. -/
theorem ofFragment_elsewhere {g : Grammar} {ts ts' : List Token}
    (h : List.Forall₂ Token.Elsewhere ts ts') {t : Tree} (ht : Tree.ofFragment g ts = .ok t) :
    ∃ t', Tree.ofFragment g ts' = .ok t' ∧ t'.rule? = t.rule? := by
  have hbound : Read.bound ts' = Read.bound ts := by rw [Read.bound, ← h.length_eq, Read.bound]
  have halike : EndAlike (fun _ _ => True) (Tree.Like Token.Elsewhere Tree.Named)
      (Tree.ofFragment g ts) (Tree.ofFragment g ts') := by
    rw [Tree.ofFragment, Tree.ofFragment, hbound]
    exact (Read.fragment_alike (Read.setting_elsewhere g) _ _ _ (start_elsewhere h)).map
      fun _ _ hout => hout.1
  obtain ⟨t', ht', hlike⟩ := halike.exists_ok ht
  exact ⟨t', ht', hlike.rule?⟩

/-- A value alone on a line is spelled by all of it. -/
theorem ofFragment_line {g : Grammar} (hg : g.KeepsLayout) {ts : List Token} {t : Tree}
    (h : Tree.ofFragment g ts = .ok t) (hflat : ∀ t ∈ ts, t.kind.isLayout = false) :
    Derives g .anyValue ts [t] := by
  obtain ⟨used, last, rest, he, hlast, hd⟩ := Tree.ofFragment_derives hg h
  have hlayout : last.kind.isLayout = true := by rcases hlast with hk | hk <;> rw [hk] <;> rfl
  rcases List.append_eq_append_iff.1 he with ⟨more, rfl, hend⟩ | ⟨more, rfl, hend⟩
  · have hlength : (Cursor.missingEnd ts).length ≤ 1 := by
      unfold Cursor.missingEnd
      split <;> [rfl; split] <;> simp
    cases more with
    | nil => simpa using hd
    | cons _ _ => simp [hend] at hlength
  · cases more with
    | nil => simpa using hd
    | cons u more =>
      obtain ⟨rfl, -⟩ := List.cons.inj hend
      simp [hflat last (by simp)] at hlayout

/-- A line that is a path spells one. -/
theorem derives_of_isPathLine {g : Grammar} (hg : g.KeepsLayout) {ts ts' : List Token}
    (h : isPathLine g ts = true) (hts : List.Forall₂ Token.Elsewhere ts ts')
    (hflat : ∀ t ∈ ts', t.kind.isLayout = false) : ∃ p, Derives g .path ts' [p] := by
  simp only [isPathLine, Bool.and_eq_true, decide_eq_true_eq] at h
  obtain ⟨hname, hread⟩ := h
  obtain ⟨t, ht, hpath⟩ := (Option.any_eq_true _ _).1 hread
  obtain ⟨t', ht', hrule⟩ := ofFragment_elsewhere hts (toOption_eq_some.1 ht)
  rw [← head?_elsewhere hts] at hname
  rw [Tree.isA, ← hrule] at hpath
  cases ofFragment_line hg ht' hflat with
  | ofValue value => cases value with
    | ofPath path => exact ⟨_, path⟩
    | parentheses opens => simp [opens] at hname
    | _ => cases hpath
  | _ => cases hpath

/-! ## The fork where a token is replaced -/

namespace Cursor

variable {tokens : List Token} {i : Nat} {t u : Token}

theorem take_numbered (tokens : List Token) (i : Nat) :
    (numbered tokens).take i = numbered (tokens.take i) := by
  refine List.ext_getElem? fun j => ?_
  simp only [List.getElem?_take, getElem?_numbered]
  split <;> simp

theorem numbered_split (h : tokens[i]? = some t) :
    numbered tokens = numbered (tokens.take i) ++ t.onLine i :: (numbered tokens).drop (i + 1) := by
  obtain ⟨hi, rfl⟩ := List.getElem?_eq_some_iff.1 h
  have hlong : i < (numbered tokens).length := by simpa
  have hone : (numbered tokens)[i] = tokens[i].onLine i := by simp [numbered]
  rw [← take_numbered, ← hone, ← List.drop_eq_getElem_cons, List.take_append_drop]

theorem line_of_getElem?_numbered (h : (numbered tokens)[i]? = some t) : t.line = i := by
  rw [getElem?_numbered, Option.map_eq_some_iff] at h
  obtain ⟨u, -, rfl⟩ := h
  rfl

theorem line_of_mem_take (h : t ∈ (numbered tokens).take i) : t.line < i := by
  obtain ⟨j, hj⟩ := List.mem_iff_getElem?.1 h
  rw [List.getElem?_take] at hj
  split at hj
  · rwa [line_of_getElem?_numbered hj]
  · cases hj

theorem line_of_mem_drop (h : t ∈ (numbered tokens).drop (i + 1)) : i < t.line := by
  obtain ⟨j, hj⟩ := List.mem_iff_getElem?.1 h
  rw [List.getElem?_drop] at hj
  rw [line_of_getElem?_numbered hj]
  omega

/-- Only the end of a story is its last token. -/
theorem drop_numbered_ne_nil (h : (completed tokens)[i]? = some t) (ht : t.kind ≠ .eof) :
    (numbered (completed tokens)).drop (i + 1) ≠ [] := by
  intro hdrop
  have hlast := getLast?_completed tokens
  have hsplit := numbered_split h
  rw [hdrop] at hsplit
  rw [← List.getLast?_map, ← kinds_numbered, hsplit] at hlast
  simp [ht] at hlast

theorem numbers_elsewhere (tokens : List Token) :
    List.Forall₂ Token.Elsewhere tokens (numbered tokens) :=
  (numbers_numbered tokens).imp fun _ _ h => by
    obtain ⟨i, -, rfl⟩ := h
    exact ⟨rfl, rfl⟩

theorem take_completed (hi : i < tokens.length) : (completed tokens).take i = tokens.take i :=
  List.take_append_of_le_length hi.le

theorem getElem?_replaced (hi : i < tokens.length) :
    (completed (tokens.set i u))[i]? = some u := by
  rw [completed, List.getElem?_append_left (by simpa), List.getElem?_set_self hi]

end Cursor

open Cursor (completed numbered)

section Replacing

variable {g : Grammar} {tokens : List Token} {i : Nat} {t u : Token}

/-- A story by the numbers of its tokens, and the story with another token in one place. -/
def Fork.replacing (hi : i < tokens.length) (ht : (completed tokens)[i]? = some t)
    (hu : u.kind ≠ .eof) (free : u.kind = .name →
      g.isReserved u.literal = false ∧ g.isTypeName u.literal = false) : Fork g where
  front := numbered (tokens.take i)
  one := t.onLine i
  back := (numbered (completed tokens)).drop (i + 1)
  other := u.onLine i
  beyond := (numbered (completed (tokens.set i u))).drop (i + 1)
  apart v hv := by
    rw [← Cursor.take_completed hi, ← Cursor.take_numbered] at hv
    rcases List.mem_append.1 hv with hv | hv
    · exact (Cursor.line_of_mem_take hv).ne
    · exact (Cursor.line_of_mem_drop hv).ne'
  ends h := Cursor.drop_numbered_ne_nil ht h
  goesOn := Cursor.drop_numbered_ne_nil (Cursor.getElem?_replaced hi) hu
  free := free

variable {hi : i < tokens.length} {ht : (completed tokens)[i]? = some t}
  {hu : u.kind ≠ .eof} {free : u.kind = .name →
      g.isReserved u.literal = false ∧ g.isTypeName u.literal = false}

theorem Fork.at_replacing : (Fork.replacing hi ht hu free).At (numbered (tokens.take i))
    (Cursor.start (numbered (completed tokens))) (Cursor.start (numbered (completed (tokens.set i u)))) where
  one := by
    rw [Cursor.upcoming_start, ← completed, Cursor.completed_numbered]
    exact Cursor.take_completed hi ▸ Cursor.numbered_split ht
  other := by
    have hset : (completed (tokens.set i u)).take i = tokens.take i := by
      rw [Cursor.take_completed (by simpa), List.take_set_of_le (le_refl i)]
    rw [Cursor.upcoming_start, ← completed, Cursor.completed_numbered]
    exact hset ▸ Cursor.numbered_split (Cursor.getElem?_replaced hi)
  front := List.suffix_refl _

theorem Fork.starts_replacing :
    (Fork.replacing hi ht hu free).Starts (numbered (tokens.take i)) :=
  fun hflat => List.rtakeWhile_eq_self_iff.2 fun v hv => by simpa using hflat v hv

/-- What is not misleading is allowed. -/
theorem Fork.fair_replacing (hg : g.KeepsLayout)
    (h : ¬ Misleading g (tokens.take i) t.kind u.kind) : (Fork.replacing hi ht hu free).Fair := by
  have hsame := lastLine_elsewhere (Cursor.numbers_elsewhere (tokens.take i))
  constructor
  · intro hk
    refine derives_of_isPathLine hg ?_ hsame fun v hv => by simpa using List.mem_rtakeWhile_imp hv
    by_contra hpath
    exact h (.inl ⟨hk, by simpa using hpath⟩)
  · rintro ⟨hk, hoperator⟩
    have hclash := fun hline => h (.inr ⟨hk, hoperator, hline⟩)
    rwa [imp_false, not_or, not_not, ← openBrackets_elsewhere hsame, ← castsOnly_elsewhere hsame,
      ← head?_elsewhere hsame] at hclash

end Replacing

/-! ## What is asked for is allowed -/

namespace Tree

variable {g : Grammar} {tokens : List Token} {i : Nat} {u : Token}

/-- The statements of a story, and nothing behind them. -/
def readStatements (g : Grammar) (n : Nat) : Read Tree :=
  Read.storyStatements (Read.statement g n .story) n >>= fun _ => Read.unexpected g []

theorem readStatements_error {e : Fault} (h : ofNumbered g tokens = .error e) :
    readStatements g (Read.bound tokens) (Cursor.start (numbered (completed tokens))) = .error e := by
  unfold ofNumbered Read.story at h
  rw [readStatements, Read.bind_apply] at *
  generalize Read.storyStatements _ _ (Cursor.start _) = o at h
  cases o with
  | error _ => simpa [Except.map] using h
  | ok _ => cases h

theorem readStatements_forks {F : Fork g} (hF : F.Fair) (hg : g.Regular) (n : Nat) :
    Read.Forks F False F.Starts (fun _ => False) (readStatements g n) :=
  Read.storyStatements_forks (Read.statement_forks hF hg n .story) n

/-- Whatever the story is, nothing is asked for but what is offered. -/
theorem forward_readStatements (hg : g.Regular) (n : Nat) : Read.Forward (readStatements g n) := by
  let F : Fork g := {
    front := [], one := ⟨.eof, "", .first⟩, back := []
    other := ⟨.int, "", .first⟩, beyond := [⟨.eof, "", .first⟩]
    apart := by simp, ends := by simp, goesOn := by simp, free := by simp }
  have hF : F.Fair := ⟨by simp [F], by simp [F, Fork.Clashing]⟩
  exact (readStatements_forks hF hg n).forward

/-- The story with the other token is read past it. -/
theorem ofTokens_replaced (hl : g.KeepsLayout) (hg : g.Regular) {f : SyntaxFault}
    (h : ofTokens g tokens = .error (.inTokens f)) (hstops : stopsAt? g tokens = some i)
    (hi : i < tokens.length) (hu : u.kind ∈ f.expected)
    (hm : ¬ Misleading g (tokens.take i) f.token.kind u.kind)
    (free : u.kind = .name → g.isReserved u.literal = false ∧ g.isTypeName u.literal = false) :
    (∃ t, ofTokens g (tokens.set i u) = .ok t) ∨
      ∃ j, stopsAt? g (tokens.set i u) = some j ∧ i < j := by
  obtain ⟨i', f', hf, hi', ht, htoken, hexpected, -⟩ := stopsAt?_of_error h
  obtain rfl : i' = i := by simpa [hi'] using hstops
  have hone := readStatements_error hf
  have hoffered : u.kind ∈ TokenKind.offered := by
    have hforward := forward_readStatements hg (Read.bound tokens)
      (Cursor.start (numbered (completed tokens)))
    rw [hone] at hforward
    exact hforward.2 _ (hexpected ▸ hu)
  have hne : u.kind ≠ .eof := fun hk => absurd (hk ▸ hoffered) (by decide)
  have hfair : (Fork.replacing hi ht hne free).Fair := Fork.fair_replacing hl hm
  have hforked := (readStatements_forks hfair hg (Read.bound tokens)).forked
    Fork.at_replacing Fork.starts_replacing
  cases hs : ofTokens g (tokens.set i' u) with
  | ok t => exact .inl ⟨t, rfl⟩
  | error e =>
    obtain ⟨s, rfl⟩ | rfl := ofTokens_error_cases hs
    · obtain ⟨j, s', hs', hj, -, htoken', -⟩ := stopsAt?_of_error hs
      have hother := readStatements_error hs'
      rw [Read.bound, List.length_set, ← Read.bound] at hother
      rw [hone, hother] at hforked
      have hbehind := hforked.behind htoken (hexpected ▸ hu) hoffered
      exact .inr ⟨j, hj, by simpa [htoken'] using Cursor.line_of_mem_drop hbehind⟩
    · exact absurd rfl (ofTokens_error hl hs).code_ne

/-- Where reading a story stops, every kind of token that the fault asks for is allowed, save the
misleading ones: with a token of that kind in place of the one at which reading stopped, the story
is read, or reading stops behind it. -/
theorem ofTokens_expected {f : SyntaxFault} (h : ofTokens .builtIn tokens = .error (.inTokens f)) :
    ∃ i, stopsAt? .builtIn tokens = some i ∧ (completed tokens)[i]? = some f.token ∧
      (i < tokens.length → ∀ k ∈ f.expected,
        ¬ Misleading .builtIn (tokens.take i) f.token.kind k → ∃ u : Token, u.kind = k ∧
          ((∃ t, ofTokens .builtIn (tokens.set i u) = .ok t) ∨
            ∃ j, stopsAt? .builtIn (tokens.set i u) = some j ∧ i < j)) := by
  obtain ⟨i, -, -, hstops, ht, -⟩ := stopsAt?_of_error h
  have hfree : Grammar.builtIn.isReserved "x" = false ∧ Grammar.builtIn.isTypeName "x" = false := by
    decide
  exact ⟨i, hstops, ht, fun hi k hk hm => ⟨⟨k, "x", .first⟩, rfl, ofTokens_replaced
    Grammar.keepsLayout_builtIn Grammar.regular_builtIn h hstops hi hk hm fun _ => hfree⟩⟩

/-- What is asked for where reading a story stops. -/
def asksFor (g : Grammar) (tokens : List Token) : List TokenKind :=
  match ofTokens g tokens with
  | .error (.inTokens f) => f.expected
  | _ => []

theorem ofTokens_of_asksFor {g : Grammar} {k : TokenKind} {ks : List TokenKind}
    (h : asksFor g tokens = k :: ks) :
    ∃ f, ofTokens g tokens = .error (.inTokens f) ∧ f.expected = k :: ks := by
  unfold asksFor at h
  split at h
  · exact ⟨_, ‹_›, h⟩
  · cases h

/-- Behind a path the line ends, or the path is assigned to. -/
theorem ofTokens_expected_path : ∃ tokens f,
    (scan ⟨.builtIn, false⟩ "a.b 2\n".toList).tokens = .ok tokens ∧
    ofTokens .builtIn tokens = .error (.inTokens f) ∧ f.expected = [.newline, .symbol .assign] ∧
    stopsAt? .builtIn tokens = some 3 ∧ ∀ k ∈ f.expected, ∃ u : Token, u.kind = k ∧
      ((∃ t, ofTokens .builtIn (tokens.set 3 u) = .ok t) ∨
        ∃ j, stopsAt? .builtIn (tokens.set 3 u) = some j ∧ 3 < j) := by
  have hs : (scan ⟨.builtIn, false⟩ "a.b 2\n".toList).tokens.toOption.map (fun tokens =>
      (tokens.length, asksFor .builtIn tokens, stopsAt? .builtIn tokens,
        tokens[3]?.map Token.kind, isPathLine .builtIn (lastLine (tokens.take 3)))) =
      some (6, [.newline, .symbol .assign], some 3, some .int, true) := by
    decide +kernel
  obtain ⟨tokens, hts, hfacts⟩ := Option.map_eq_some_iff.1 hs
  simp only [Prod.mk.injEq] at hfacts
  obtain ⟨hlength, hasks, hstops, hkind, hpath⟩ := hfacts
  obtain ⟨f, hf, hexpected⟩ := ofTokens_of_asksFor hasks
  obtain ⟨i, hi, ht, hallowed⟩ := ofTokens_expected hf
  obtain rfl : i = 3 := by simpa [hi] using hstops
  refine ⟨tokens, f, toOption_eq_some.1 hts, hf, hexpected, hi, fun k hk => ?_⟩
  refine hallowed (by omega) k hk ?_
  have hkind : f.token.kind = .int := by
    rw [completed, List.getElem?_append_left (by omega)] at ht
    simpa [ht] using hkind
  rintro (⟨-, h⟩ | ⟨-, h, -⟩)
  · rw [hpath] at h
    cases h
  · rw [hkind] at h
    revert h
    decide

set_option maxRecDepth 4000 in
/-- Behind a number an `=` is asked for in place of an `=`, and in parentheses the line is to end. -/
theorem ofTokens_expected_misleading :
    (∃ tokens, (scan ⟨.builtIn, false⟩ "1 =\n".toList).tokens = .ok tokens ∧
      asksFor .builtIn tokens = [.newline, .symbol .assign] ∧
      ∀ u : Token, u.kind = .symbol .assign → stopsAt? .builtIn (tokens.set 1 u) = some 1) ∧
    ∃ tokens, (scan ⟨.builtIn, false⟩ "(a == b == c)\n".toList).tokens = .ok tokens ∧
      asksFor .builtIn tokens = [.newline] ∧ stopsAt? .builtIn tokens = some 4 ∧
      ∀ u : Token, u.kind = .newline → stopsAt? .builtIn (tokens.set 4 u) = some 4 := by
  have hs : (scan ⟨.builtIn, false⟩ "1 =\n".toList).tokens.toOption = some
      [⟨.int, "1", ⟨1, 1⟩⟩, ⟨.symbol .assign, "=", ⟨1, 3⟩⟩, ⟨.newline, "\n", ⟨1, 4⟩⟩,
        ⟨.eof, "", ⟨2, 1⟩⟩] := by
    decide +kernel
  have hs' : (scan ⟨.builtIn, false⟩ "(a == b == c)\n".toList).tokens.toOption = some
      [⟨.symbol .leftParen, "(", ⟨1, 1⟩⟩, ⟨.name, "a", ⟨1, 2⟩⟩, ⟨.symbol .equal, "==", ⟨1, 4⟩⟩,
        ⟨.name, "b", ⟨1, 7⟩⟩, ⟨.symbol .equal, "==", ⟨1, 9⟩⟩, ⟨.name, "c", ⟨1, 12⟩⟩,
        ⟨.symbol .rightParen, ")", ⟨1, 13⟩⟩, ⟨.newline, "\n", ⟨1, 14⟩⟩, ⟨.eof, "", ⟨2, 1⟩⟩] := by
    decide +kernel
  refine ⟨⟨_, toOption_eq_some.1 hs, by decide +kernel, ?_⟩,
    ⟨_, toOption_eq_some.1 hs', by decide +kernel, by decide +kernel, ?_⟩⟩
  · intro u hu
    rw [stopsAt?_set (t := ⟨.symbol .assign, "=", ⟨1, 3⟩⟩) hu (by decide) rfl rfl]
    decide +kernel
  · intro u hu
    rw [stopsAt?_set (t := ⟨.newline, "\n", ⟨1, 9⟩⟩) hu (by decide) rfl rfl]
    decide +kernel

end Tree

end StoryLang
