/-
Reading two lists of tokens that differ in one place: lines.

A statement starts at the start of a line, so up to the fork it is the whole
line in front of it. `Fork.Fair` says where that line may end in place of an
operator, and what a value may be assigned to there. In an index the path in
front of an assignment is read up to the bracket that closes it.
-/
import Mathlib.Data.List.DropRight
import StoryLang.Proofs.Tree.Fork.Value

namespace StoryLang

/-! ## Lines and brackets -/

/-- The tokens behind the last layout. -/
def lastLine (ts : List Token) : List Token := ts.rtakeWhile fun t => !t.kind.isLayout

theorem lastLine_append {ts us : List Token} {t : Token} (ht : t.kind.isLayout = true)
    (hu : ∀ u ∈ us, u.kind.isLayout = false) : lastLine (ts ++ t :: us) = us := by
  have hu' : ∀ u ∈ us.reverse, (!u.kind.isLayout) = true := by simpa using hu
  rw [lastLine, List.rtakeWhile, List.reverse_append, List.reverse_cons, List.append_assoc,
    List.takeWhile_append_of_pos hu']
  simp [ht]

/-- So many brackets are open behind a token of that kind, if none is closed that is not open. -/
def TokenKind.nest : TokenKind → Nat → Option Nat
  | .symbol .leftBracket, n | .symbol .leftBrace, n | .symbol .leftParen, n => some (n + 1)
  | .symbol .rightBracket, n | .symbol .rightBrace, n | .symbol .rightParen, n =>
    if n = 0 then none else some (n - 1)
  | _, n => some n

/-- The same behind some tokens. -/
def nested (n : Nat) (ts : List Token) : Option Nat := ts.foldlM (fun n t => t.kind.nest n) n

@[simp] theorem nested_nil (n : Nat) : nested n [] = some n := rfl

theorem nested_cons (n : Nat) (t : Token) (ts : List Token) :
    nested n (t :: ts) = (t.kind.nest n).bind (nested · ts) := rfl

theorem nested_append (n : Nat) (ts us : List Token) :
    nested n (ts ++ us) = (nested n ts).bind (nested · us) := List.foldlM_append

theorem nest_plain {k : TokenKind} (h : k.isPlain = true) (n : Nat) : k.nest n = some n := by
  unfold TokenKind.nest
  split <;> first | rfl | cases h

theorem nest_opening {k : TokenKind} (h : k.isOpening = true) (n : Nat) :
    k.nest n = some (n + 1) := by
  unfold TokenKind.isOpening at h
  split at h <;> first | rfl | cases h

theorem nest_closing {k : TokenKind} (h : k.isClosing = true) (n : Nat) :
    k.nest (n + 1) = some n ∧ k.nest 0 = none := by
  unfold TokenKind.isClosing at h
  split at h <;> first | exact ⟨rfl, rfl⟩ | cases h

/-- As many brackets are open as are remembered. -/
theorem length_openBrackets {ts : List Token} {s : List Symbol} {n : Nat}
    (h : nested s.length ts = some n) : (Stuck.openBrackets s ts).length = n := by
  induction ts generalizing s with
  | nil => simpa [Stuck.openBrackets] using h
  | cons t ts ih =>
    rw [nested_cons] at h
    have hopens {b : Symbol} (hk : t.kind = .symbol b)
        (hb : (TokenKind.symbol b).isOpening = true) : (Stuck.openBrackets (b :: s) ts).length = n := by
      rw [hk, nest_opening hb] at h
      exact ih h
    have hcloses {b : Symbol} (hk : t.kind = .symbol b)
        (hb : (TokenKind.symbol b).isClosing = true) : (Stuck.openBrackets s.tail ts).length = n := by
      rw [hk] at h
      cases s with
      | nil => simp [(nest_closing hb 0).2] at h
      | cons b' s =>
        rw [List.length_cons, (nest_closing hb _).1] at h
        exact ih h
    unfold Stuck.openBrackets
    split
    · exact hopens ‹_› rfl
    · exact hopens ‹_› rfl
    · exact hopens ‹_› rfl
    · exact hcloses ‹_› rfl
    · exact hcloses ‹_› rfl
    · exact hcloses ‹_› rfl
    · have hplain : t.kind.nest s.length = some s.length := by
        rw [TokenKind.nest] <;> assumption
      rw [hplain] at h
      exact ih h

/-- The tokens close the brackets they open, and no others. -/
def Balanced (ts : List Token) : Prop := ∀ n, nested n ts = some n

namespace Balanced

variable {t opening closing : Token} {k : TokenKind} {ts us : List Token}

theorem nil : Balanced [] := fun _ => rfl

theorem append (h : Balanced ts) (h' : Balanced us) : Balanced (ts ++ us) := fun n => by
  rw [nested_append, h n, Option.bind_some, h' n]

theorem cons (h : Balanced ts) (ht : t.kind = k) (hk : ∀ n, k.nest n = some n) :
    Balanced (t :: ts) := fun n => by
  rw [nested_cons, ht, hk, Option.bind_some, h n]

theorem plain (h : Balanced ts) (ht : t.kind.isPlain = true) : Balanced (t :: ts) :=
  h.cons rfl (nest_plain ht)

theorem within (opens : opening.kind.isOpening = true) (h : Balanced ts)
    (closes : closing.kind.isClosing = true) (h' : Balanced us) :
    Balanced (opening :: ts ++ closing :: us) := fun n => by
  rw [List.cons_append, nested_cons, nest_opening opens, Option.bind_some, nested_append, h,
    Option.bind_some, nested_cons, (nest_closing closes n).1, Option.bind_some, h' n]

end Balanced

/-- What stays on its line closes the brackets it opens, and no others. -/
theorem Derives.balanced {g : Grammar} (hg : g.Regular) {p : Phrase} {ts : List Token}
    {trees : List Tree} (h : Derives g p ts trees) : p.isFlat = true → Balanced ts := by
  have hname {u : Token} (hu : Derives g .name [u] [.token u]) : u.kind.isPlain = true := by
    rw [hu.name_kind]
    rfl
  have hword {u : Token} (hu : g.isTypeWord u) : u.kind.isPlain = true := by
    rcases hu with hk | ⟨hk, -⟩ <;> rw [hk] <;> rfl
  induction h with
  | name kind => exact fun _ => .cons .nil kind fun _ => rfl
  | one _ ih => exact ih
  | more _ kind _ ih ih' => exact fun hp => (ih hp).append ((ih' hp).cons kind fun _ => rfl)
  | typeName word => exact fun _ => Balanced.nil.plain (hword word)
  | typeParts word opens _ closes ih =>
    exact fun _ => .plain (.within (opens ▸ rfl) (ih rfl) (closes ▸ rfl) .nil) (hword word)
  | noFragments | noArguments | noLinks | noParameters | noReturns => exact fun _ => .nil
  | field kind named _ _ ih => exact fun _ => ((ih rfl).plain (hname named)).cons kind fun _ => rfl
  | index opens _ closes _ ih ih' =>
    exact fun _ => .within (opens ▸ rfl) (ih rfl) (closes ▸ rfl) (ih' rfl)
  | path named _ _ ih => exact fun _ => (ih rfl).plain (hname named)
  | argument named kind _ _ _ ih ih' =>
    exact fun _ => (((ih rfl).append (ih' rfl)).cons kind fun _ => rfl).plain (hname named)
  | argumentComma named kind _ separated _ _ ih ih' =>
    have hcomma := (ih' rfl).cons separated fun _ => rfl
    exact fun _ => (((ih rfl).append hcomma).cons kind fun _ => rfl).plain (hname named)
  | output kind _ ih => exact fun _ => (ih rfl).cons kind fun _ => rfl
  | link kind named _ _ _ ih ih' =>
    exact fun _ => (((ih rfl).append (ih' rfl)).plain (hname named)).cons kind fun _ => rfl
  | ofPath _ ih | ofValue _ ih => exact fun _ => ih rfl
  | number kind | boolean kind =>
    exact fun _ => .plain .nil (by rcases kind with hk | hk <;> rw [hk] <;> rfl)
  | string kind | null kind => exact fun _ => .cons .nil kind fun _ => rfl
  | emptyList opens closes | emptyMap opens closes =>
    exact fun _ => .within (opens ▸ rfl) .nil (closes ▸ rfl) .nil
  | list opens _ closes ih | map opens _ closes ih | parentheses opens _ closes ih =>
    exact fun _ => .within (opens ▸ rfl) (ih rfl) (closes ▸ rfl) .nil
  | entry _ kind _ ih ih' => exact fun _ => (ih rfl).append ((ih' rfl).cons kind fun _ => rfl)
  | functionCall named opens _ closes _ ih =>
    exact fun _ => .plain (.within (opens ▸ rfl) (ih rfl) (closes ▸ rfl) .nil) (hname named)
  | unary operator _ ih =>
    exact fun _ => (ih rfl).plain (by rcases hg.before.1 operator with h | h <;> rw [h] <;> rfl)
  | cast _ kind _ ih ih' => exact fun _ => (ih rfl).append ((ih' rfl).cons kind fun _ => rfl)
  | binary _ operator _ ih ih' =>
    exact fun _ => (ih rfl).append ((ih' rfl).plain (hg.between operator))
  | service _ _ named _ ih _ ih' =>
    exact fun _ => (ih rfl).append ((ih' rfl).plain (hname named))
  | serviceOutput _ _ named _ _ ih _ ih' ih'' =>
    exact fun _ => ((ih rfl).append ((ih' rfl).plain (hname named))).append (ih'' rfl)
  | chain _ _ named _ _ ih _ ih' ih'' | mutation _ _ named _ _ ih _ ih' ih'' =>
    exact fun _ => ((ih rfl).append ((ih' rfl).plain (hname named))).append (ih'' rfl)
  | parameter named kind _ _ _ ih ih' =>
    exact fun _ => (((ih rfl).append (ih' rfl)).cons kind fun _ => rfl).plain (hname named)
  | returns kind _ ih => exact fun _ => (ih rfl).cons kind fun _ => rfl
  | _ => exact nofun

/-- Outside of brackets, of which `n` are open, every `as` has a type behind it. -/
def castsOnly (g : Grammar) : Nat → List Token → Bool
  | _, [] => true
  | n, t :: ts =>
    (n ≠ 0 || t.kind ≠ .keyword .asWord || ts.head?.any g.namesType) &&
      (t.kind.nest n).all (castsOnly g · ts)

theorem castsOnly_cons {g : Grammar} {t : Token} {ts : List Token} {n n' : Nat}
    (hts : castsOnly g n' ts = true) (hn : t.kind.nest n = some n')
    (ht : n = 0 → t.kind = .keyword .asWord → ts.head?.any g.namesType = true) :
    castsOnly g n (t :: ts) = true := by
  rw [castsOnly, hn, Option.all_some, hts, Bool.and_true]
  by_cases h : n = 0 <;> by_cases hk : t.kind = .keyword .asWord <;> simp [h, hk, ht]

/-! ## The line of the fork -/

namespace Fork

variable {g : Grammar} {F : Fork g}

/-- The line of the fork may end there in place of an operator, and what is in front of an
assignment is a path. -/
structure Fair (F : Fork g) : Prop where
  assignment : F.other.kind = .symbol .assign → ∃ p, Derives g .path (lastLine F.front) [p]
  clash : F.Clashing → Stuck.openBrackets [] (lastLine F.front) = [] ∧
    ¬ ((lastLine F.front).head?.map Token.kind = some (.keyword .foreachWord) ∧
      castsOnly g 0 (lastLine F.front) = true)

/-- It is the start of a line. -/
def Starts (F : Fork g) (pre : List Token) : Prop :=
  (∀ t ∈ pre, t.kind.isLayout = false) → lastLine F.front = pre

theorem step_starts {k : TokenKind} (hk : k.isLayout = true) {Φ : List Token → Prop} :
    F.Step k Φ F.Starts := by
  rintro t pre rfl ⟨ts, hts⟩ - hflat
  rw [← hts]
  exact lastLine_append hk hflat

/-- On the line from `start` on so many brackets are open. -/
def Since (start : List Token) (n : Nat) (pre : List Token) : Prop :=
  ∃ ts, start = ts ++ pre ∧ (∀ t ∈ ts, t.kind.isLayout = false) ∧ nested 0 ts = some n

theorem since_start {start : List Token} : Since start 0 start :=
  ⟨[], rfl, by simp, rfl⟩

theorem Since.next {start pre : List Token} {t : Token} {n n' : Nat}
    (h : Since start n (t :: pre)) (ht : t.kind.isLayout = false)
    (hn : t.kind.nest n = some n') : Since start n' pre := by
  obtain ⟨ts, rfl, hflat, hnested⟩ := h
  refine ⟨ts ++ [t], by simp, ?_, ?_⟩
  · simpa [or_imp, forall_and, ht] using hflat
  · rw [nested_append, hnested, Option.bind_some, nested_cons, hn]
    rfl

/-- On a line a call may also end in an `as`. -/
structure TracksLine (F : Fork g) (P : Nat → List Token → Prop) : Prop extends F.Tracks P where
  outputLast : F.Step (.keyword .asWord) (P 0) (P 0)

/-- At the start of a line no bracket is open. -/
theorem Starts.tracks {start : List Token} (hF : F.Fair) (h : F.Starts start) :
    F.TracksLine (Since start) where
  plain hk := by
    rintro t pre rfl - hs
    exact hs.next (TokenKind.isLayout_of_isPlain hk) (nest_plain hk _)
  opens hk := by
    rintro t pre rfl - hs
    exact hs.next (TokenKind.isLayout_of_isOpening hk) (nest_opening hk _)
  closes hk := by
    rintro t pre rfl - hs
    exact hs.next (TokenKind.isLayout_of_isClosing hk) (nest_closing hk _).1
  cast := by
    rintro _ t pre hk - ⟨hs, -⟩
    exact hs.next (by simp [hk]) (by rw [hk]; rfl)
  output := by
    rintro _ t pre hk - hs
    exact hs.next (by simp [hk]) (by rw [hk]; rfl)
  outputLast := by
    rintro t pre hk - hs
    exact hs.next (by simp [hk]) (by rw [hk]; rfl)
  deep hc n := by
    rintro ⟨ts, rfl, hflat, hnested⟩
    rw [List.append_nil] at h
    have hopen := (hF.clash hc).1
    rw [h hflat] at hopen
    have := length_openBrackets (s := []) hnested
    simp [hopen] at this

/-- In what a `foreach` goes over. -/
def GoesOver (g : Grammar) (start : List Token) (n : Nat) (pre : List Token) : Prop :=
  Since start n pre ∧ start.head?.map Token.kind = some (.keyword .foreachWord) ∧
    (castsOnly g n pre = true → castsOnly g 0 start = true)

theorem GoesOver.next {start pre : List Token} {t : Token} {n n' : Nat}
    (h : GoesOver g start n (t :: pre)) (hs : Since start n' pre) (hn : t.kind.nest n = some n')
    (ht : n = 0 → t.kind = .keyword .asWord → pre.head?.any g.namesType = true) :
    GoesOver g start n' pre :=
  ⟨hs, h.2.1, fun hpre => h.2.2 (castsOnly_cons hpre hn ht)⟩

theorem Tracks.goesOver {start : List Token} (hP : F.Tracks (Since start)) :
    F.Tracks (GoesOver g start) where
  plain {k n} hk := by
    rintro t pre rfl hf h
    refine h.next (hP.plain hk t pre rfl hf h.1) (nest_plain hk _) fun _ ha => ?_
    rw [ha] at hk
    cases hk
  opens hk := by
    rintro t pre rfl hf h
    refine h.next (hP.opens hk t pre rfl hf h.1) (nest_opening hk _) fun _ ha => ?_
    rw [ha] at hk
    cases hk
  closes hk := by
    rintro t pre rfl hf h
    exact h.next (hP.closes hk t pre rfl hf h.1) (nest_closing hk _).1 (by simp)
  cast := by
    rintro _ t pre hk hf ⟨h, hcast⟩
    exact h.next (hP.cast t pre hk hf ⟨h.1, hcast⟩) (by rw [hk]; rfl) fun _ _ => hcast
  output := by
    rintro _ t pre hk hf h
    exact h.next (hP.output t pre hk hf h.1) (by rw [hk]; rfl) (by simp)
  deep hc n h := hP.deep hc n h.1

/-- What a `foreach` goes over does not end its line. -/
theorem Starts.not_goesOver {start : List Token} (hF : F.Fair) (h : F.Starts start)
    (hc : F.Clashing) : ¬ GoesOver g start 0 [] := by
  rintro ⟨⟨ts, rfl, hflat, -⟩, hforeach, hcasts⟩
  rw [List.append_nil] at h hforeach hcasts
  rw [← h hflat] at hforeach hcasts
  exact (hF.clash hc).2 ⟨hforeach, hcasts rfl⟩

end Fork

namespace Read

variable {α β : Type} {g : Grammar} {F : Fork g} {Q : Prop} {Φ Χ Ψ : List Token → Prop}
  {P : Nat → List Token → Prop} {k : TokenKind} {c d : Cursor} {pre : List Token}

/-! ## The start and the end of a line -/

theorem Forks.start {f : Unit → Read β} (h : Forks F Q Φ Ψ (f ())) :
    Forks F Q Φ Ψ (startStatement >>= f) :=
  ⟨fun c => h.forward c.startStatement,
    fun hat => h.forked (c := Cursor.startStatement _) (d := Cursor.startStatement _)
      ⟨hat.one, hat.other, hat.front⟩⟩

theorem Opening.start {f : Unit → Read β} (h : Opening F k Q Φ Ψ (f ())) :
    Opening F k Q Φ Ψ (startStatement >>= f) where
  forward c := h.forward c.startStatement
  taken hd := h.taken (d := Cursor.startStatement _) hd
  spent hc := h.spent (c := Cursor.startStatement _) hc
  forked hat := h.forked (c := Cursor.startStatement _) (d := Cursor.startStatement _)
    ⟨hat.one, hat.other, hat.front⟩

/-- Only the line from here on matters. -/
theorem Opening.ofStart {r : Read α}
    (h : ∀ start, F.Starts start → Opening F k Q (· = start) Ψ r) : Opening F k Q F.Starts Ψ r :=
  have hany := h (lastLine F.front) fun _ => rfl
  ⟨hany.forward, hany.taken, hany.spent, fun hat hk ht => (h _ ht).forked hat hk rfl⟩

/-- On the line from here on the brackets are counted. -/
theorem Opening.ofLine {r : Read α} (hF : F.Fair)
    (h : ∀ P, F.TracksLine P → Opening F k Q (P 0) Ψ r) : Opening F k Q F.Starts Ψ r :=
  .ofStart fun _ hstart => (h _ (hstart.tracks hF)).mono fun _ hp => hp ▸ Fork.since_start

theorem ends_expect : Ends (expect g .newline) := fun c hk hc => by
  rw [expect_of_kind hk]
  exact within_next (v := Tree.token) (fun _ => rfl) hc

theorem ends_ifAt {x y : Read β} (hk : k ≠ .newline) (hy : Ends y) :
    Ends (isAt k >>= fun b => if b = true then x else y) := by
  intro c hc
  rw [ifAt_ne (by rw [hc]; exact hk.symm)]
  exact hy c hc

/-- The last part of a statement is the end of its line. -/
theorem lineEnd_opening {v : Tree → α} :
    Opening F .newline Q Φ F.Starts (expect g .newline >>= fun t => pure (v t)) :=
  (opening_expect (by decide) (Fork.step_starts rfl)).bindPlain fun _ => .pure fun _ h => h

theorem lineEnd_forks {v : Tree → α} :
    Forks F Q Φ F.Starts (expect g .newline >>= fun t => pure (v t)) :=
  (Forks.expect (by decide) (Fork.step_starts rfl)).bindPlain fun _ => .pure fun _ h => h

/-! ## Statements of one line -/

theorem condition_forks (hP : F.Tracks P) (hg : g.Regular) (n : Nat) :
    Forks F (P 0 []) (P 0) (P 0) (condition g n) :=
  expression_forks hP hg n 0 0

theorem anyValue_forks (hP : F.TracksLine P) (hg : g.Regular) (n : Nat) :
    Forks F (P 0 []) (P 0) (P 0) (anyValue g n) :=
  callOrValue_forks hP.toTracks (expression_forks hP.toTracks hg n) hP.outputLast n

theorem jumpWithValue_opening (hF : F.Fair) (hg : g.Regular) (hk : k.isPlain = true) (r : Rule)
    (n : Nat) : Opening F k False F.Starts F.Starts (jumpWithValue g r n) := by
  unfold jumpWithValue
  simp only [pure_bind]
  refine .ofLine hF fun P hP => ?_
  refine (opening_leaf (by rintro rfl; cases hk) (hP.plain hk)).bindPlain fun _ => ?_
  refine .ifAt lineEnd_opening
    ((anyValue_forks hP hg n).bindEnd (fun _ => lineEnd_forks) fun _ => ?_)
  exact ends_expect.bind fun _ => forward_pure _

/-- A jump that is refused asks for nothing. -/
theorem refuse_opening (hk : k ∉ TokenKind.offered) (code : Code) :
    Opening F k Q Φ Ψ (refuse code : Read α) where
  forward := (Forks.refuse (F := F) (Q := Q) (Φ := Φ) (Ψ := Ψ) code).forward
  taken _ _ hk' := absurd hk' hk
  spent _ _ _ := .inr ⟨_, rfl, by simp⟩
  forked _ _ _ := .unasked (by simp)

theorem returnStatement_opening (hF : F.Fair) (hg : g.Regular) (e : Enclosing) (n : Nat) :
    Opening F (.keyword .returnWord) False F.Starts F.Starts (returnStatement g e n) :=
  .ite (jumpWithValue_opening hF hg rfl .returnStatement n) (refuse_opening (by decide) _)

theorem loopJump_opening (hF : F.Fair) (e : Enclosing) {w : Keyword}
    (hw : .keyword w ∉ TokenKind.offered) (r : Rule) (outside : Code) :
    Opening F (.keyword w) False F.Starts F.Starts (loopJump g e r outside) :=
  have hplain : (TokenKind.keyword w).isPlain = true := by
    cases w <;> first | rfl | exact absurd (by decide) hw
  .ite (.ofLine hF fun P hP => (opening_leaf (by simp) (hP.plain hplain)).bindPlain
    fun _ => lineEnd_forks) (refuse_opening hw outside)

theorem importStatement_opening (hF : F.Fair) :
    Opening F (.keyword .importWord) False F.Starts F.Starts (importStatement g) := by
  refine .ofLine hF fun P hP => ?_
  refine (opening_leaf (by decide) (hP.plain rfl)).bindPlain fun _ => ?_
  refine .unlessAt ?_ (by decide) (by simp)
  refine (opening_leaf (by decide) (hP.plain rfl)).bindPlain fun _ => ?_
  refine (Forks.expect (by decide) hP.outputLast).bindPlain fun _ => ?_
  exact (Forks.expectName (hP.plain rfl)).bindPlain fun _ => lineEnd_forks

theorem valueStatement_forks (hP : F.TracksLine P) (hg : g.Regular) (n : Nat) (value : Tree) :
    Forks F (P 0 []) (P 0) (P 0) (valueStatement g n value) := by
  have hv := expression_forks hP.toTracks hg n
  refine .ifAt (.ifAt (.ite (serviceTail_opening hP.toTracks hv hP.outputLast n value)
    (mutationTail_opening hP.toTracks hv n value)) (forward_pure _)) ?_
  split <;> exact .pure fun _ h => h

theorem rests_valueStatement (n : Nat) (value : Tree) : Rests (valueStatement g n value) := by
  refine rests_ifAt (by decide) ?_
  split <;> exact rests_pure _

/-- What a statement goes on with behind a path. -/
def afterPath (g : Grammar) (n : Bound) (target : Tree) : Read Tree := do
  if ← isAt (.symbol .assign) then
    let sign ← leaf
    return .of .assignment [target, sign, ← anyValue g n]
  else if ← isAt .name then serviceTail g (expression g n) n target
  else valueStatement g n (← climb g (expression g n) 0 n target)

/-- A statement that starts with a path. -/
def pathStatement (g : Grammar) (n : Bound) : Read Tree :=
  path g (expression g n) n >>= afterPath g n

/-- A statement that starts with any value. -/
def otherStatement (g : Grammar) (n : Bound) : Read Tree := condition g n >>= valueStatement g n

theorem simple_eq (g : Grammar) (n : Bound) :
    simple g n = isAt .name >>= fun a =>
      if a = true then isBefore (.symbol .leftParen) >>= fun b =>
        if b = true then otherStatement g n else pathStatement g n
      else otherStatement g n := by
  refine congrArg (isAt .name >>= ·) (funext fun a => ?_)
  cases a
  · rfl
  · refine congrArg (isBefore (.symbol .leftParen) >>= ·) (funext fun b => ?_)
    cases b <;> rfl

theorem expression_name (hP : F.Tracks P) (hg : g.Regular) :
    ∀ n, Opening F .name (P 0 []) (P 0) (P 0) (expression g n 0)
  | 0 => .tooManySteps
  | n + 1 => by
    have hv := expression_forks hP hg n
    exact (operand_opening hP hv hg n (by decide)).bind
      (fun left => climb_forks hP hv hg 0 n left) fun _ left => rests_climb hg 0 n left

theorem afterPath_forks (hP : F.TracksLine P) (hg : g.Regular) (n : Nat) (target : Tree) :
    Forks F (P 0 []) (P 0) (P 0) (afterPath g n target) := by
  have hv := expression_forks hP.toTracks hg n
  refine .ifAt ((opening_leaf (by decide) (hP.plain rfl)).bindPlain fun _ => ?_)
    (.ifAt (serviceTail_opening hP.toTracks hv hP.outputLast n target) ?_)
  · exact (anyValue_forks hP hg n).bind (fun _ => .pure fun _ h => h) fun _ _ => rests_pure _
  · exact (climb_forks hP.toTracks hv hg 0 n target).bind (fun v => valueStatement_forks hP hg n v)
      fun _ v => rests_valueStatement n v

theorem pathStatement_opening (hP : F.TracksLine P) (hg : g.Regular) (n : Nat) :
    Opening F .name (P 0 []) (P 0) (P 0) (pathStatement g n) :=
  (path_opening hP.toTracks (expression_forks hP.toTracks hg n) n).bindPlain fun target =>
    afterPath_forks hP hg n target

theorem otherStatement_opening (hP : F.TracksLine P) (hg : g.Regular) (n : Nat) :
    Opening F .name (P 0 []) (P 0) (P 0) (otherStatement g n) :=
  (expression_name hP.toTracks hg n).bind (fun v => valueStatement_forks hP hg n v)
    fun _ v => rests_valueStatement n v

theorem otherStatement_forks (hP : F.TracksLine P) (hg : g.Regular) (n : Nat) :
    Forks F (P 0 []) (P 0) (P 0) (otherStatement g n) :=
  (condition_forks hP.toTracks hg n).bind (fun v => valueStatement_forks hP hg n v)
    fun _ v => rests_valueStatement n v

theorem calls_otherStatement (hP : F.TracksLine P) (hg : g.Regular) (n : Nat) :
    Calls g (otherStatement g n) := by
  have hcalls : Calls g (expression g n 0) := by
    cases n with
    | zero => exact fun _ _ _ _ _ _ _ _ => trivial
    | succ n =>
      have hv := expression_forks hP.toTracks hg n
      exact (calls_operand hP.toTracks hv n).bind fun left =>
        (climb_forks (n := 0) hP.toTracks hv hg 0 n left).forward
  exact hcalls.bind fun v => (valueStatement_forks hP hg n v).forward

theorem names_otherStatement (n : Nat) : Names g (otherStatement g n) := by
  refine Names.bind ?_
  cases n with
  | zero => exact fun _ _ _ => ⟨_, rfl, by simp⟩
  | succ n => exact (names_operand n).bind

theorem simple_forks (hP : F.TracksLine P) (hg : g.Regular) (n : Nat) :
    Forks F (P 0 []) (P 0) (P 0) (simple g n) := by
  rw [simple_eq]
  exact .ifAt (opening_ifBefore (otherStatement_opening hP hg n) (pathStatement_opening hP hg n)
    (calls_otherStatement hP hg n) (names_otherStatement n) names_expectName.bind.bind)
    (otherStatement_forks hP hg n)

/-! ## Paths up to the fork -/

/-- The value of an index, of which some is read with so many brackets open, and the path
goes on behind it. -/
def InIndex (g : Grammar) (n : Nat) (pre : List Token) : Prop :=
  ∃ v close us fs ts, v ++ close :: us = ts ++ pre ∧ nested 0 v = some 0 ∧
    close.kind.isClosing = true ∧ Derives g .fragments us fs ∧ nested 0 ts = some n

theorem InIndex.next {t : Token} {n n' : Nat} (h : InIndex g n (t :: pre))
    (hn : t.kind.nest n = some n') : InIndex g n' pre := by
  obtain ⟨v, close, us, fs, ts, he, hv, hclose, hd, hts⟩ := h
  refine ⟨v, close, us, fs, ts ++ [t], by simpa using he, hv, hclose, hd, ?_⟩
  rw [nested_append, hts, Option.bind_some, nested_cons, hn]
  rfl

/-- What closes the index is where its value ends. -/
theorem nested_closing {ts us : List Token} {t : Token} (h : nested 0 ts = some 0)
    (ht : t.kind.isClosing = true) : nested 0 (ts ++ t :: us) = none := by
  rw [nested_append, h, Option.bind_some, nested_cons, (nest_closing ht 0).2]
  rfl

theorem InIndex.closed {t : Token} (h : InIndex g 0 (t :: pre)) (ht : t.kind.isClosing = true) :
    ∃ fs, Derives g .fragments pre fs := by
  obtain ⟨v, close, us, fs, ts, he, hv, hclose, hd, hts⟩ := h
  -- neither of the two can go on behind the bracket that closes the other
  rcases List.append_eq_append_iff.1 he with ⟨as, rfl, he'⟩ | ⟨as, rfl, he'⟩
  · cases as with
    | nil => exact ⟨fs, by simpa using (List.cons.inj he').2 ▸ hd⟩
    | cons a as =>
      obtain ⟨rfl, rfl⟩ := List.cons.inj he'
      rw [nested_closing hv hclose] at hts
      cases hts
  · cases as with
    | nil => exact ⟨fs, by simpa using (List.cons.inj he').2 ▸ hd⟩
    | cons a as =>
      obtain ⟨rfl, rfl⟩ := List.cons.inj he'
      rw [nested_closing hts ht] at hv
      cases hv

theorem not_inIndex_nil {n : Nat} : ¬ InIndex g n [] := by
  rintro ⟨v, close, us, fs, ts, he, hv, hclose, -, hts⟩
  rw [List.append_nil] at he
  rw [← he, nested_closing hv hclose] at hts
  cases hts

theorem tracks_inIndex : F.TracksLine (InIndex g) where
  plain hk := by
    rintro t pre rfl - h
    exact h.next (nest_plain hk _)
  opens hk := by
    rintro t pre rfl - h
    exact h.next (nest_opening hk _)
  closes hk := by
    rintro t pre rfl - h
    exact h.next (nest_closing hk _).1
  cast := by
    rintro _ t pre hk - ⟨h, -⟩
    exact h.next (by rw [hk]; rfl)
  output := by
    rintro _ t pre hk - h
    exact h.next (by rw [hk]; rfl)
  outputLast := by
    rintro t pre hk - h
    exact h.next (by rw [hk]; rfl)
  deep _ _ := not_inIndex_nil

theorem fragments_exact (hg : g.Regular) (n : Nat) :
    ∀ m, Forks F False (fun pre => ∃ fs, Derives g .fragments pre fs) (· = [])
      (fragments g (expression g n) m)
  | 0 => .tooManySteps
  | m + 1 => by
    have hdot : F.Step (.symbol .dot) (fun pre => ∃ fs, Derives g .fragments pre fs)
        (fun pre => ∃ name us, pre = name :: us ∧ ∃ fs, Derives g .fragments us fs) := by
      rintro t pre ht - ⟨fs, hd⟩
      cases hd with
      | field _ _ others => exact ⟨_, _, rfl, _, others⟩
      | index opens => simp [opens] at ht
    have hname : F.Step .name
        (fun pre => ∃ name us, pre = name :: us ∧ ∃ fs, Derives g .fragments us fs)
        (fun pre => ∃ fs, Derives g .fragments pre fs) := by
      rintro t pre - - ⟨name, us, he, hd⟩
      exact (List.cons.inj he).2 ▸ hd
    have hopen : F.Step (.symbol .leftBracket) (fun pre => ∃ fs, Derives g .fragments pre fs)
        (InIndex g 0) := by
      rintro t pre ht - ⟨fs, hd⟩
      cases hd with
      | field kind => simp [kind] at ht
      | index _ value closes others =>
        exact ⟨_, _, _, _, [], rfl, value.balanced hg rfl 0, by rw [closes]; rfl, others, rfl⟩
    have hclose : F.Step (.symbol .rightBracket) (InIndex g 0)
        (fun pre => ∃ fs, Derives g .fragments pre fs) := by
      rintro t pre ht - h
      exact h.closed (by rw [ht]; rfl)
    have hindex : Forks F False (InIndex g 0) (InIndex g 0) (expression g n 0) :=
      (expression_forks tracks_inIndex.toTracks hg n 0 0).mono (fun _ q => not_inIndex_nil q)
        (fun _ h => h) fun _ h => h
    have hrest {v : List Tree → List Tree} : Forks F False
        (fun pre => ∃ fs, Derives g .fragments pre fs) (· = [])
        (fragments g (expression g n) m >>= fun rest => pure (v rest)) :=
      (fragments_exact hg n m).bindPlain fun _ => .pure fun _ h => h
    unfold fragments
    refine .ifAtElse ((opening_leaf (by decide) hdot).bindPlain fun _ =>
      (Forks.expectName hname).bindPlain fun _ => hrest) (.ifAtElse
        ((opening_leaf (by decide) (hopen.mono fun _ h => h.1)).bindPlain fun _ =>
          hindex.bindPlain fun _ => (Forks.expect (by decide) hclose).bindPlain fun _ => hrest)
        (.pure ?_))
    rintro pre ⟨⟨⟨fs, hd⟩, hk⟩, hk'⟩
    cases hd with
    | noFragments => rfl
    | field kind => exact absurd kind hk
    | index opens => exact absurd opens hk'

theorem path_exact (hg : g.Regular) (n m : Nat) :
    Forks F False (fun pre => ∃ p, Derives g .path pre [p]) (· = [])
      (path g (expression g n) m) := by
  have hname : F.Step .name (fun pre => ∃ p, Derives g .path pre [p])
      (fun pre => ∃ fs, Derives g .fragments pre fs) := by
    rintro t pre - - ⟨p, hd⟩
    cases hd with
    | path _ others => exact ⟨_, others⟩
  exact (Forks.expectName hname).bindPlain fun _ =>
    (fragments_exact hg n m).bindPlain fun _ => .pure fun _ h => h

/-- Behind a path an assignment is read. -/
theorem pathStatement_assigned (hk : F.other.kind = .symbol .assign) (hg : g.Regular) (n : Nat) :
    Forks F False (fun pre => ∃ p, Derives g .path pre [p]) (fun _ => False)
      (pathStatement g n) := by
  have hforward (target : Tree) : Forward (afterPath g n target) :=
    (afterPath_forks (tracks_inIndex (F := F)) hg n target).forward
  refine (path_exact hg n n).bindPlain fun target => ⟨hforward target, ?_⟩
  rintro _ c d hat rfl
  obtain ⟨-, -, hother, hbeyond⟩ := hat.here
  have hvalue : Forward (anyValue g n) := (anyValue_forks (tracks_inIndex (F := F)) hg n).forward
  refine .past ?_
  unfold afterPath
  rw [ifAt_eq (by rw [hother, hk]), ← hbeyond]
  exact (within_next (v := Tree.token) (fun _ => rfl) (by rw [hbeyond]; exact F.goesOn)).bind
    fun _ => hvalue.bind fun _ => forward_pure _

theorem simple_assigned (hk : F.other.kind = .symbol .assign) (hg : g.Regular) {p : Tree}
    (hd : Derives g .path pre [p]) (hat : F.At pre c d) (n : Nat) :
    Forked F False (fun _ => False) (simple g n c) (simple g n d) := by
  have hpath := (pathStatement_assigned hk hg n).forked hat ⟨p, hd⟩
  obtain ⟨root, us, fs, rfl, hname, hfree, hd⟩ : ∃ root us fs, pre = root :: us ∧
      root.kind = .name ∧ g.isReserved root.literal = false ∧ Derives g .fragments us fs := by
    cases hd with
    | path named others =>
      cases named with
      | name kind free => exact ⟨_, _, _, rfl, kind, free, others⟩
  obtain ⟨hcurrent, hcurrent', -, hahead, hahead'⟩ := hat.there
  rw [simple_eq, ifAt_eq (by rwa [hcurrent]), ifAt_eq (by rwa [hcurrent'])]
  cases us with
  | nil =>
    rw [ifBefore_ne hahead' (by simp [hk])]
    by_cases hone : F.one.kind = .symbol .leftParen
    · rw [ifBefore_eq hahead hone]
      exact .beyond (calls_otherStatement (tracks_inIndex (F := F)) hg n c _ _ (by rwa [hcurrent])
        (by rwa [hcurrent]) hahead hone (F.ends (by simp [hone])))
    · rw [ifBefore_ne hahead hone]
      exact hpath
  | cons u us =>
    have hu : u.kind ≠ .symbol .leftParen := by
      cases hd with
      | field kind => simp [kind]
      | index opens => simp [opens]
    rw [ifBefore_ne hahead hu, ifBefore_ne hahead' hu]
    exact hpath

end Read

end StoryLang
