/-
Reading two lists of tokens that differ in one place: values.

In a value the end of the line is asked for in one place only: behind a row of
operators that must not be in a row. In brackets no line ends, so the readers
of values keep count of the brackets that are open, by any `Tracks` of them.
-/
import StoryLang.Grammar.BuiltIn
import StoryLang.Proofs.Tree.Fork.Basic

namespace StoryLang

/-! ## Brackets -/

namespace TokenKind

/-- The kinds of tokens that open a bracket. -/
def isOpening : TokenKind → Bool
  | .symbol .leftBracket | .symbol .leftBrace | .symbol .leftParen => true
  | _ => false

/-- The kinds of tokens that close a bracket. -/
def isClosing : TokenKind → Bool
  | .symbol .rightBracket | .symbol .rightBrace | .symbol .rightParen => true
  | _ => false

theorem isLayout_of_isOpening {k : TokenKind} (h : k.isOpening = true) : k.isLayout = false := by
  unfold isOpening at h
  split at h <;> first | rfl | cases h

theorem isLayout_of_isClosing {k : TokenKind} (h : k.isClosing = true) : k.isLayout = false := by
  unfold isClosing at h
  split at h <;> first | rfl | cases h

/-- The other kinds of tokens of a line, except for `as`. -/
def isPlain (k : TokenKind) : Bool :=
  !k.isLayout && !k.isOpening && !k.isClosing && k ≠ .keyword .asWord

theorem isLayout_of_isPlain {k : TokenKind} (h : k.isPlain = true) : k.isLayout = false := by
  simp only [isPlain, Bool.and_eq_true, Bool.not_eq_true'] at h
  exact h.1.1.1

end TokenKind

/-- What reading needs to know of a grammar's tables to ask only for what is allowed. -/
structure Grammar.Regular (g : Grammar) : Prop where
  between : ∀ {k}, (g.operators.between? k).isSome → k.isPlain = true
  before : ∀ {k}, (g.operators.before? k).isSome ↔ k = .symbol .minus ∨ k = .keyword .notWord
  /-- Operators of one precedence are grouped alike. -/
  alike : ∀ {k k' o o'}, g.operators.between? k = some o → g.operators.between? k' = some o' →
    o'.precedence = o.precedence → o'.grouping = o.grouping
  /-- No reader asks for an operator that must not be in a row. -/
  offered : ∀ {k o}, k ∈ TokenKind.offered → g.operators.between? k = some o → o.grouping ≠ .none
  typeNames : ∀ {w}, g.isTypeName w = true → g.isReserved w = false

theorem Grammar.Regular.between_newline {g : Grammar} (hg : g.Regular) :
    g.operators.between? .newline = none := by
  rw [← Option.not_isSome_iff_eq_none]
  exact fun h => absurd (hg.between h) (by decide)

theorem OperatorTable.mem_of_between? {t : OperatorTable} {k : TokenKind} {o : Operator}
    (h : t.between? k = some o) : o ∈ t.between ∧ o.kind = k :=
  ⟨List.mem_of_find?_eq_some h, by simpa using List.find?_some h⟩

theorem Grammar.regular_builtIn : builtIn.Regular where
  between {k} h := by
    obtain ⟨o, ho⟩ := Option.isSome_iff_exists.1 h
    obtain ⟨hmem, rfl⟩ := OperatorTable.mem_of_between? ho
    exact (by decide : ∀ o ∈ builtIn.operators.between, o.kind.isPlain = true) o hmem
  before {k} := by
    rw [OperatorTable.before?, List.find?_isSome]
    simp [builtIn, @eq_comm _ _ k, or_comm]
  alike h h' :=
    (by decide : ∀ o ∈ builtIn.operators.between, ∀ o' ∈ builtIn.operators.between,
      o'.precedence = o.precedence → o'.grouping = o.grouping)
      _ (OperatorTable.mem_of_between? h).1 _ (OperatorTable.mem_of_between? h').1
  offered {k o} hk h := by
    obtain ⟨hmem, rfl⟩ := OperatorTable.mem_of_between? h
    exact (by decide : ∀ o ∈ builtIn.operators.between, o.kind ∈ TokenKind.offered →
      o.grouping ≠ .none) o hmem hk
  typeNames {w} h :=
    (by decide : ∀ w ∈ builtIn.typeNames, builtIn.isReserved w = false) w
      (by simpa [isTypeName] using h)

/-- What is known in front of a token with so many brackets open. -/
structure Fork.Tracks {g : Grammar} (F : Fork g) (P : Nat → List Token → Prop) : Prop where
  plain : ∀ {k n}, k.isPlain = true → F.Step k (P n) (P n)
  opens : ∀ {k n}, k.isOpening = true → F.Step k (P n) (P (n + 1))
  closes : ∀ {k n}, k.isClosing = true → F.Step k (P (n + 1)) (P n)
  /-- An `as` with a type behind it. -/
  cast : ∀ {n}, F.Step (.keyword .asWord)
    (fun pre => P n pre ∧ pre.tail.head?.any g.namesType = true) (P n)
  /-- In brackets an `as` may also be behind a call. -/
  output : ∀ {n}, F.Step (.keyword .asWord) (P (n + 1)) (P (n + 1))
  deep : F.Clashing → ∀ n, ¬ P (n + 1) []

namespace Read

variable {α β : Type} {g : Grammar} {F : Fork g} {Q : Prop} {Φ Χ Ψ : List Token → Prop}
  {P : Nat → List Token → Prop} {n m : Nat} {k : TokenKind} {c : Cursor}

/-! ## The end of the line -/

theorem rests_pure (a : α) : Rests (pure a) := fun c _ _ => .inl ⟨a, c, rfl, rfl⟩

theorem Rests.bind {r : Read α} {f : α → Read β} (h : Rests r) (hf : ∀ a, Rests (f a))
    (hforward : ∀ a, Forward (f a)) : Rests (r >>= f) := by
  intro c hk hc
  rcases h c hk hc with ⟨a, c', hr, hup⟩ | h
  · have hcurrent := Cursor.current_of_upcoming hup
    have hahead := Cursor.ahead_of_upcoming hup
    rw [bind_apply, hr]
    have := hf a c' (by rwa [hcurrent]) (by rwa [hahead])
    rwa [hup, hahead] at this
  · exact .inr (h.bind hforward)

theorem Rests.map {r : Read α} {v : α → β} (h : Rests r) : Rests (r >>= fun a => pure (v a)) :=
  h.bind (fun _ => rests_pure _) fun _ => forward_pure _

theorem rests_ifAt {x y : Read β} (hk : k ≠ .newline) (hy : Rests y) :
    Rests (isAt k >>= fun b => if b = true then x else y) := by
  intro c hc
  rw [ifAt_ne (by rw [hc]; exact hk.symm)]
  exact hy c hc

theorem rests_tooManySteps : Rests (tooManySteps : Read α) := fun _ _ _ => .inr trivial

/-! ## More openings -/

theorem Opening.ite {p : Prop} [Decidable p] {r r' : Read α} (h : Opening F k Q Φ Ψ r)
    (h' : Opening F k Q Φ Ψ r') : Opening F k Q Φ Ψ (if p then r else r') := by
  split
  · exact h
  · exact h'

theorem Opening.tooManySteps : Opening F k Q Φ Ψ (Read.tooManySteps : Read α) where
  forward _ := trivial
  taken _ _ _ := trivial
  spent _ _ _ := .inl trivial
  forked _ _ _ := .beyond trivial

theorem expect_of_kind (hk : c.current.kind = k) : expect g k c = leaf c := by
  show (if decide (c.current.kind = k) = true then leaf else unexpected g [k]) c = leaf c
  rw [if_pos (by simpa using hk)]

theorem opening_expect (hk : k ∈ TokenKind.offered) (h : F.Step k Φ Χ) :
    Opening F k Q Φ Χ (expect g k) :=
  (opening_leaf (by rintro rfl; revert hk; decide) h).ifAt (forward_unexpected (by simpa))

/-- A reader that can only start with one of these kinds. -/
theorem Forks.ofOpenings {S : List TokenKind} {r : Read α} (hS : S ≠ [])
    (h : ∀ k ∈ S, Opening F k Q Φ Ψ r)
    (hstuck : ∀ c, c.current.kind ∉ S → r c = Read.unexpected g S c) : Forks F Q Φ Ψ r := by
  obtain ⟨k, hk⟩ := List.exists_mem_of_ne_nil S hS
  refine ⟨(h k hk).forward, fun {pre c d} hat hpre => ?_⟩
  cases pre with
  | nil =>
    obtain ⟨hone, -, -, -⟩ := hat.here
    by_cases hk' : F.other.kind ∈ S
    · exact (h _ hk').reached hat.other rfl
    · by_cases hk : F.one.kind ∈ S
      · exact ((h _ hk).spent hat.one rfl fun he => hk' (he ▸ hk)).forked
      · rw [hstuck c (by rwa [hone])]
        exact .unasked (by simpa [Cursor.stuck] using hk')
  | cons t pre =>
    obtain ⟨hcurrent, -, hline, -, -⟩ := hat.there
    by_cases hk : t.kind ∈ S
    · exact (h _ hk).forked hat rfl hpre
    · rw [hstuck c (by rwa [hcurrent])]
      exact .early (by simpa [Cursor.stuck, hcurrent] using hline)

/-! ## A name and what is behind it -/

/-- The reader does not start with a word that is kept for the future. -/
def Names (g : Grammar) (r : Read α) : Prop :=
  ∀ c, c.current.kind = .name → g.isReserved c.current.literal = true →
    ∃ e, r c = .error e ∧ ∀ f, e = .inTokens f → f.token = c.current

/-- A name and a parenthesis are read together. -/
def Calls (g : Grammar) (r : Read α) : Prop :=
  ∀ c t ts, c.current.kind = .name → g.isReserved c.current.literal = false → c.ahead = t :: ts →
    t.kind = .symbol .leftParen → ts ≠ [] → Within ts (r c)

theorem Names.bind {r : Read α} {f : α → Read β} (h : Names g r) : Names g (r >>= f) := by
  intro c hk hw
  obtain ⟨e, hr, he⟩ := h c hk hw
  exact ⟨e, by rw [bind_apply, hr], he⟩

theorem Calls.bind {r : Read α} {f : α → Read β} (h : Calls g r) (hf : ∀ a, Forward (f a)) :
    Calls g (r >>= f) :=
  fun c t ts hk hw hc ht hts => (h c t ts hk hw hc ht hts).bind hf

theorem names_expectName : Names g (expectName g) :=
  fun _ _ hw => ⟨_, expectName_stuck fun _ => hw, by rintro f ⟨⟩; simp [Cursor.stuck]⟩

theorem calls_paren {f : Tree → Tree → Read β} (hf : ∀ a b, Forward (f a b)) :
    Calls g (expectName g >>= fun a => expect g (.symbol .leftParen) >>= f a) := by
  intro c t ts hk hw hc ht hts
  rw [bind_apply, expectName_free hk hw]
  have hnext : c.next.current = t ∧ c.next.ahead = ts := by simp [Cursor.next, hc]
  refine Within.bind ?_ (hf _)
  rw [expect_of_kind (by rw [hnext.1, ht]), ← hnext.2]
  exact within_next (v := Tree.token) (fun _ => rfl) (by rwa [hnext.2])

theorem ifBefore_eq {x y : Read β} {t : Token} {ts : List Token} (hc : c.ahead = t :: ts)
    (ht : t.kind = k) : (isBefore k >>= fun b => if b = true then x else y) c = x c := by
  simp [bind_apply, isBefore_apply, hc, ht]

theorem ifBefore_ne {x y : Read β} {t : Token} {ts : List Token} (hc : c.ahead = t :: ts)
    (ht : t.kind ≠ k) : (isBefore k >>= fun b => if b = true then x else y) c = y c := by
  simp [bind_apply, isBefore_apply, hc, ht]

/-- Whether a parenthesis is behind the name decides how it is read. -/
theorem opening_ifBefore {x y : Read β} (hx : Opening F .name Q Φ Ψ x)
    (hy : Opening F .name Q Φ Ψ y) (hcalls : Calls g x) (hnames : Names g x)
    (hnames' : Names g y) :
    Opening F .name Q Φ Ψ
      (isBefore (.symbol .leftParen) >>= fun b => if b = true then x else y) := by
  have hcases (c : Cursor) :
      (isBefore (.symbol .leftParen) >>= fun b => if b = true then x else y) c = x c ∨
        (isBefore (.symbol .leftParen) >>= fun b => if b = true then x else y) c = y c := by
    cases hb : decide ((c.ahead.headD c.current).kind = .symbol .leftParen) <;>
      simp only [bind_apply, isBefore_apply, hb] <;> simp
  constructor
  case forward => exact forward_look fun _ => .ite hx.forward hy.forward
  case taken =>
    intro d hd hk hk'
    rcases hcases d with h | h <;> rw [h]
    · exact hx.taken hd hk hk'
    · exact hy.taken hd hk hk'
  case spent =>
    intro c hc hk hk'
    rcases hcases c with h | h <;> rw [h]
    · exact hx.spent hc hk hk'
    · exact hy.spent hc hk hk'
  case forked =>
    intro t pre c d hat hk hpre
    obtain ⟨hcurrent, hcurrent', hline, hahead, hahead'⟩ := hat.there
    cases pre with
    | cons u pre =>
      by_cases hu : u.kind = .symbol .leftParen
      · rw [ifBefore_eq hahead hu, ifBefore_eq hahead' hu]
        exact hx.forked hat hk hpre
      · rw [ifBefore_ne hahead hu, ifBefore_ne hahead' hu]
        exact hy.forked hat hk hpre
    | nil =>
      -- only the names that are free can be read in two ways
      by_cases hw : g.isReserved t.literal = true
      · have hearly {r : Read β} {o'} (hr : Names g r) : Forked F Q Ψ (r c) o' := by
          obtain ⟨e, he, htoken⟩ := hr c (by rwa [hcurrent]) (by rwa [hcurrent])
          rw [he]
          cases e with
          | inTokens f => exact .early (by rwa [htoken f rfl, hcurrent])
          | _ => exact .beyond trivial
        rcases hcases c with h | h <;> rw [h]
        · exact hearly hnames
        · exact hearly hnames'
      have hfree : g.isReserved t.literal = false := by simpa using hw
      by_cases hone : F.one.kind = .symbol .leftParen
      · rw [ifBefore_eq hahead hone]
        exact .beyond (hcalls c _ _ (by rwa [hcurrent]) (by rwa [hcurrent]) hahead hone
          (F.ends (by simp [hone])))
      rw [ifBefore_ne hahead hone]
      by_cases hother : F.other.kind = .symbol .leftParen
      · rw [ifBefore_eq hahead' hother]
        exact .past (hcalls d _ _ (by rwa [hcurrent']) (by rwa [hcurrent']) hahead' hother F.goesOn)
      · rw [ifBefore_ne hahead' hother]
        exact hy.forked hat hk hpre

/-- Goes on, unless an operator that must not be in a row is followed by another one. -/
def unlessAgain (g : Grammar) (o : Operator) (y : Read β) : Read β := do
  let again := (g.operators.between? (← kind)).any fun next => next.precedence = o.precedence
  if o.grouping = .none && again then unexpected g [.newline]
  y

/-! ## Rows and types -/

variable (hP : F.Tracks P)

include hP

theorem commaSeparated_forks {item : Read Tree} (hi : Forks F False (P n) (P n) item) :
    ∀ m, Forks F False (P n) (F.Unless (.symbol .comma) (P n)) (commaSeparated item m)
  | 0 => .tooManySteps
  | m + 1 => hi.bindPlain fun _ => .ifAtElse
      ((opening_take (by decide) (hP.plain rfl)).bindPlain fun _ =>
        (commaSeparated_forks hi m).bindPlain fun _ => .pure fun _ h => h)
      (.pure fun _ h => h)

omit hP in
/-- The word of a type is `function`, or a name. -/
theorem typeWord_eq (f : Tree → Read β) :
    (do
      if !((← isAt (.keyword .functionWord)) || (← isAtName g)) then unexpected g [.name]
      f (← leaf)) =
    isAt (.keyword .functionWord) >>= fun b =>
      if b = true then leaf >>= f else expectName g >>= f := by
  refine congrArg (isAt (.keyword .functionWord) >>= ·) (funext fun b => funext fun c => ?_)
  cases b
  · simp only [Bool.false_or, bind_apply, isAtName_apply, expectName, Bool.false_eq_true, if_false]
    cases decide (c.current.kind = .name) && !g.isReserved c.current.literal <;> rfl
  · rfl

/-- Such a word is taken. -/
theorem forks_typeWord {f : Tree → Read β} (hf : ∀ t, Forks F Q (P n) Ψ (f t)) :
    Forks F Q (P n) Ψ (do
        if !((← isAt (.keyword .functionWord)) || (← isAtName g)) then unexpected g [.name]
        f (← leaf)) ∧
      ∀ c : Cursor, g.isTypeWord c.current → c.ahead ≠ [] → Within c.ahead ((do
        if !((← isAt (.keyword .functionWord)) || (← isAtName g)) then unexpected g [.name]
        f (← leaf)) c) := by
  rw [typeWord_eq f]
  refine ⟨.ifAt ((opening_leaf (by decide) (hP.plain rfl)).bindPlain hf)
    ((Forks.expectName (hP.plain rfl)).bindPlain hf), fun c hw hc => ?_⟩
  have hleaf := (within_next (r := leaf) (v := Tree.token) (fun _ => rfl) hc)
  show Within c.ahead ((if decide (c.current.kind = _) = true then leaf >>= f
    else expectName g >>= f) c)
  split
  · exact hleaf.bind fun t => (hf t).forward
  · rename_i hk
    obtain hw | ⟨hk, hw⟩ := hw
    · exact absurd (decide_eq_true hw) hk
    · exact Within.bind (expectName_free hk hw ▸ hleaf) fun t => (hf t).forward

theorem types_forks : ∀ m n, Forks F False (P n) (P n) (types g m) ∧
    ∀ c : Cursor, g.isTypeWord c.current → c.ahead ≠ [] → Within c.ahead (types g m c)
  | 0, _ => ⟨.tooManySteps, fun _ _ _ => trivial⟩
  | m + 1, n => by
    unfold types
    refine forks_typeWord hP fun name => ?_
    refine .ifAt ((opening_take (by decide) (hP.opens rfl)).bindPlain fun _ => ?_)
      (.pure fun _ h => h)
    refine (commaSeparated_forks hP (types_forks m (n + 1)).1 m).bindPlain fun parts => ?_
    refine .unlessAt ?_ (by decide) fun h => by simpa using h.2
    exact (opening_take (by decide) ((hP.closes rfl).mono fun _ h => h.1)).bindPlain
      fun _ => .pure fun _ h => h

/-! ## Parts of values -/

/-- Readers of values among so many open brackets. -/
abbrev ValueForks (F : Fork g) (P : Nat → List Token → Prop) (value : Nat → Read Tree) : Prop :=
  ∀ n min, Forks F (P n []) (P n) (P n) (value min)

section Values

variable {value : Nat → Read Tree} (hv : ValueForks F P value)

include hv

/-- In brackets no line ends. -/
theorem ValueForks.inner (n min : Nat) : Forks F False (P (n + 1)) (P (n + 1)) (value min) :=
  (hv (n + 1) min).mono (fun hc => hP.deep hc n) (fun _ h => h) fun _ h => h

theorem fragments_forks : ∀ m, Forks F False (P n) (P n) (fragments g value m)
  | 0 => .tooManySteps
  | m + 1 => by
    unfold fragments
    refine .ifAt ((opening_leaf (by decide) (hP.plain rfl)).bindPlain fun _ => ?_)
      (.ifAt ((opening_leaf (by decide) (hP.opens rfl)).bindPlain fun _ => ?_)
        (.pure fun _ h => h))
    · refine (Forks.expectName (hP.plain rfl)).bindPlain fun _ => ?_
      exact (fragments_forks m).bindPlain fun _ => .pure fun _ h => h
    · refine (hv.inner hP n 0).bindPlain fun _ => ?_
      refine (Forks.expect (by decide) (hP.closes rfl)).bindPlain fun _ => ?_
      exact (fragments_forks m).bindPlain fun _ => .pure fun _ h => h

theorem path_opening (m : Nat) : Opening F .name Q (P n) (P n) (path g value m) :=
  (opening_expectName (hP.plain rfl)).bindPlain fun _ =>
    (fragments_forks hP hv m).bindPlain fun _ => .pure fun _ h => h

theorem path_forks (m : Nat) : Forks F False (P n) (P n) (path g value m) :=
  (Forks.expectName (hP.plain rfl)).bindPlain fun _ =>
    (fragments_forks hP hv m).bindPlain fun _ => .pure fun _ h => h

omit hP hv in
theorem rests_argumentList : ∀ m, Rests (argumentList g value m)
  | 0 => rests_tooManySteps
  | _ + 1 => rests_ifAt (by decide) (rests_pure [])

/-- An argument may end the line. -/
theorem argumentList_forks : ∀ m, Forks F (P n []) (P n) (F.Unless .name (P n))
    (argumentList g value m)
  | 0 => .tooManySteps
  | m + 1 => by
    unfold argumentList
    refine .ifAtElse ((opening_expectName (hP.plain rfl)).bindPlain fun _ => ?_)
      (.pure fun _ h => h)
    refine (Forks.expect (by decide) (hP.plain rfl)).bindPlain fun _ =>
      (hv n 0).bind (fun _ => ?_) ?_
    · refine .ifAt ((opening_take (by decide) (hP.plain rfl)).bindPlain fun _ => ?_) ?_ <;>
      exact (argumentList_forks m).bind (fun _ => .pure fun _ h => h) fun _ _ => rests_pure _
    · exact fun _ _ => rests_ifAt (by decide) (rests_argumentList m).map

theorem arguments_forks (m : Nat) :
    Forks F (P n []) (P n) (F.Unless .name (P n)) (arguments g value m) :=
  (argumentList_forks hP hv m).bind (fun _ => .pure fun _ h => h) fun _ _ => rests_pure _

omit hv in
theorem output_opening (hn : F.Step (.keyword .asWord) Φ (P n)) (m : Nat) :
    Opening F (.keyword .asWord) Q Φ (P n) (output g m) := by
  refine (opening_expect (by decide) hn).bindPlain fun _ => ?_
  refine (commaSeparated_forks hP (.expectName (hP.plain rfl)) m).bindPlain fun _ => ?_
  exact .pure fun _ h => h.1

omit hP hv in
theorem rests_links : ∀ m, Rests (links g value m)
  | 0 => rests_tooManySteps
  | _ + 1 => rests_ifAt (by decide) (rests_pure [])

theorem links_opening : ∀ m,
    Opening F (.keyword .thenWord) (P n []) (P n) (P n) (links g value m) ∧
      Forks F (P n []) (P n) (P n) (links g value m)
  | 0 => ⟨.tooManySteps, .tooManySteps⟩
  | m + 1 => by
    have ih := (links_opening m).2
    have hlink : Opening F (.keyword .thenWord) (P n []) (P n) (P n) (do
        let word ← leaf
        let name ← expectName g
        let given ← arguments g value m
        return Tree.of .mutationFragment [word, name, given] :: (← links g value m)) := by
      refine (opening_leaf (by decide) (hP.plain rfl)).bindPlain fun _ => ?_
      refine (Forks.expectName (hP.plain rfl)).bindPlain fun _ => ?_
      refine ((arguments_forks hP hv m).mono (fun _ q => q) (fun _ h => h) fun _ h => h.1).bind
        (fun _ => ih.bind (fun _ => .pure fun _ h => h) fun _ _ => rests_pure _) ?_
      exact fun _ _ => (rests_links m).map
    unfold links
    exact ⟨hlink.ifAt (forward_pure _), .ifAt hlink (.pure fun _ h => h)⟩

/-! ## Calls -/

theorem serviceTail_opening (hn : F.Step (.keyword .asWord) (P n) (P n)) (m : Nat)
    (service : Tree) : Opening F .name (P n []) (P n) (P n) (serviceTail g value m service) := by
  refine (opening_expectName (hP.plain rfl)).bindPlain fun _ => ?_
  refine ((arguments_forks hP hv m).mono (fun _ q => q) (fun _ h => h) fun _ h => h.1).bind
    (fun _ => ?_) fun _ _ => rests_ifAt (by decide) (rests_ifAt (by decide) (rests_pure _))
  refine .ifAt ?_ (.ifAt ?_ (.pure fun _ h => h))
  · exact (links_opening hP hv m).1.bind (fun _ => .pure fun _ h => h) fun _ _ => rests_pure _
  · exact (output_opening hP hn m).bindPlain fun _ => .pure fun _ h => h

theorem mutationTail_opening (m : Nat) (subject : Tree) :
    Opening F .name (P n []) (P n) (P n) (mutationTail g value m subject) := by
  refine (opening_expectName (hP.plain rfl)).bindPlain fun _ => ?_
  refine ((arguments_forks hP hv m).mono (fun _ q => q) (fun _ h => h) fun _ h => h.1).bind
    (fun _ => ?_) fun _ _ => (rests_links m).map
  exact (links_opening hP hv m).2.bind (fun _ => .pure fun _ h => h) fun _ _ => rests_pure _

theorem callTail_forks (hn : F.Step (.keyword .asWord) (P n) (P n)) (m : Nat) (left : Tree) :
    Forks F (P n []) (P n) (P n) (callTail g value m left) :=
  .ifAt (.ite (serviceTail_opening hP hv hn m left) (mutationTail_opening hP hv m left))
    (.pure fun _ h => h)

omit hP hv in
theorem rests_callTail (m : Nat) (left : Tree) : Rests (callTail g value m left) :=
  rests_ifAt (by decide) (rests_pure _)

theorem callOrValue_forks (hn : F.Step (.keyword .asWord) (P n) (P n)) (m : Nat) :
    Forks F (P n []) (P n) (P n) (callOrValue g value m) :=
  (hv n 0).bind (fun left => callTail_forks hP hv hn m left) fun _ left => rests_callTail m left

/-! ## Values in brackets -/

omit hv in
theorem closing_opening {Φ : List Token → Prop} (hk : k.isClosing = true)
    (hp : ∀ pre, Φ pre → P (n + 1) pre) (v : Tree → Tree) :
    Opening F k Q Φ (P n) (leaf >>= fun t => pure (v t)) :=
  (opening_leaf (by rintro rfl; cases hk) ((hP.closes hk).mono hp)).bindPlain
    fun _ => .pure fun _ h => h

theorem list_opening (m : Nat) :
    Opening F (.symbol .leftBracket) Q (P n) (P n) (list g value m) := by
  unfold list
  simp only [pure_bind]
  refine (opening_leaf (by decide) (hP.opens rfl)).bindPlain fun opening => ?_
  refine .ifAt (.unlessAt (closing_opening hP rfl (fun _ h => h) _) (by decide)) ?_
  refine (commaSeparated_forks hP (hv.inner hP n 0) m).bindPlain fun _ => ?_
  exact .unlessAt (closing_opening hP rfl (fun _ h => h.1) _) (by decide)
    fun h => by simpa using h.2

theorem mapItem_forks : Forks F False (P (n + 1)) (P (n + 1)) (mapItem g value) := by
  refine (hv.inner hP n 0).bindPlain fun _ => ?_
  refine (Forks.expect (by decide) (hP.plain rfl)).bindPlain fun _ => ?_
  exact (hv.inner hP n 0).bindPlain fun _ => .pure fun _ h => h

theorem map_opening (m : Nat) : Opening F (.symbol .leftBrace) Q (P n) (P n) (map g value m) := by
  unfold map
  simp only [pure_bind]
  refine (opening_leaf (by decide) (hP.opens rfl)).bindPlain fun opening => ?_
  refine .ifAt (.unlessAt (closing_opening hP rfl (fun _ h => h) _) (by decide)) ?_
  refine (commaSeparated_forks hP (mapItem_forks hP hv) m).bindPlain fun _ => ?_
  exact .unlessAt (closing_opening hP rfl (fun _ h => h.1) _) (by decide)
    fun h => by simpa using h.2

theorem functionCall_opening (m : Nat) :
    Opening F .name Q (P n) (P n) (functionCall g value m) := by
  refine (opening_expectName (hP.plain rfl)).bindPlain fun _ => ?_
  refine (Forks.expect (by decide) (hP.opens rfl)).bindPlain fun _ => ?_
  refine ((arguments_forks hP hv m).mono (fun hc => hP.deep hc n) (fun _ h => h)
    fun _ h => h).bindPlain fun _ => ?_
  exact .unlessAt (closing_opening hP rfl (fun _ h => h.1) _) (by decide)
    fun h => by simpa using h.2

theorem parenthesized_opening (m : Nat) :
    Opening F (.symbol .leftParen) Q (P n) (P n) (parenthesized g value m) := by
  refine (opening_take (by decide) (hP.opens rfl)).bindPlain fun _ => ?_
  refine ((callOrValue_forks hP hv hP.output m).mono (fun hc => hP.deep hc n) (fun _ h => h)
    fun _ h => h).bindPlain fun _ => ?_
  exact (Forks.expect (by decide) (hP.closes rfl)).bindPlain fun _ => .pure fun _ h => h

omit hv in
theorem literal_opening (hk : k.isPlain = true) (r : Rule) :
    Opening F k Q (P n) (P n) (literal r) :=
  (opening_leaf (by rintro rfl; cases hk) (hP.plain hk)).bindPlain fun _ => .pure fun _ h => h

/-! ## Operands -/

omit hP hv in
theorem forward_prefixed (h : ∀ min, Forward (value min)) : Forward (prefixed g value) := by
  refine forward_look fun k => ?_
  split
  · exact forward_unexpected (by decide)
  · exact forward_leaf.bind fun _ => (h _).bind fun _ => forward_pure _

theorem prefixed_opening (hk : k.isPlain = true) (ho : (g.operators.before? k).isSome) :
    Opening F k (P n []) (P n) (P n) (prefixed g value) := by
  obtain ⟨operator, ho⟩ := Option.isSome_iff_exists.1 ho
  have hsign : Opening F k (P n []) (P n) (P n) (do
      let sign ← leaf
      return Tree.of .unaryExpression [sign, ← value operator.precedence]) :=
    (opening_leaf (by rintro rfl; cases hk) (hP.plain hk)).bindPlain fun _ =>
      (hv n _).bind (fun _ => .pure fun _ h => h) fun _ _ => rests_pure _
  refine hsign.congr (forward_prefixed fun min => (hv 0 min).forward) fun c hc => ?_
  simp only [prefixed, kind_apply, bind_apply, hc, ho]

theorem calls_functionCall (m : Nat) : Calls g (functionCall g value m) := by
  refine calls_paren fun name opening => ?_
  have hf := (arguments_forks hP hv (n := 0) m).forward
  exact hf.bind fun _ => forward_look fun _ => .ite
    ((forward_unexpected (by decide)).bind fun _ => forward_leaf.bind fun _ => forward_pure _)
    (forward_leaf.bind fun _ => forward_pure _)

theorem named_opening (m : Nat) : Opening F .name Q (P n) (P n)
    (isBefore (.symbol .leftParen) >>= fun b =>
      if b = true then functionCall g value m else path g value m) :=
  opening_ifBefore (functionCall_opening hP hv m) (path_opening hP hv m)
    (calls_functionCall hP hv m) names_expectName.bind names_expectName.bind

omit hP hv in
theorem operand_name {c : Cursor} (hk : c.current.kind = .name) (m : Nat) :
    operand g value m c = (isBefore (.symbol .leftParen) >>= fun b =>
      if b = true then functionCall g value m else path g value m) c := by
  simp only [operand, bind_apply, kind_apply, hk]

theorem calls_operand (m : Nat) : Calls g (operand g value m) := by
  intro c t ts hk hw hc ht hts
  rw [operand_name hk, ifBefore_eq hc ht]
  exact calls_functionCall hP hv m c t ts hk hw hc ht hts

omit hP hv in
theorem names_operand (m : Nat) : Names g (operand g value m) := by
  intro c hk hw
  rw [operand_name hk]
  show ∃ e, (if decide _ = true then functionCall g value m else path g value m) c = .error e ∧ _
  split
  · exact names_expectName.bind c hk hw
  · exact names_expectName.bind c hk hw

theorem forward_operand (m : Nat) : Forward (operand g value m) := by
  have hliteral r : Forward (literal r) := forward_leaf.bind fun _ => forward_pure _
  refine forward_look fun k => ?_
  split
  · exact (named_opening hP hv (Q := False) (n := 0) m).forward
  · exact hliteral _
  · exact hliteral _
  · exact hliteral _
  · exact hliteral _
  · exact hliteral _
  · exact hliteral _
  · exact (list_opening hP hv (Q := False) (n := 0) m).forward
  · exact (map_opening hP hv (Q := False) (n := 0) m).forward
  · exact (parenthesized_opening hP hv (Q := False) (n := 0) m).forward
  · exact forward_prefixed fun min => (hv 0 min).forward

theorem operand_opening (hg : g.Regular) (m : Nat) (hk : k ∈ valueStart) :
    Opening F k (P n []) (P n) (P n) (operand g value m) := by
  simp only [valueStart, List.mem_cons, List.not_mem_nil, or_false] at hk
  rcases hk with rfl | rfl | rfl | rfl | rfl | rfl | rfl | rfl | rfl | rfl | rfl | rfl <;>
    refine Opening.congr ?_ (forward_operand hP hv m) fun c hc => by
      simp only [operand, kind_apply, bind_apply, hc]
      rfl
  · exact named_opening hP hv m
  · exact literal_opening hP rfl .number
  · exact literal_opening hP rfl .number
  · exact literal_opening hP rfl .string
  · exact literal_opening hP rfl .boolean
  · exact literal_opening hP rfl .boolean
  · exact literal_opening hP rfl .null
  · exact list_opening hP hv m
  · exact map_opening hP hv m
  · exact parenthesized_opening hP hv m
  · exact prefixed_opening hP hv rfl (hg.before.2 (.inl rfl))
  · exact prefixed_opening hP hv rfl (hg.before.2 (.inr rfl))

theorem operand_forks (hg : g.Regular) (m : Nat) :
    Forks F (P n []) (P n) (P n) (operand g value m) := by
  refine .ofOpenings (by decide) (fun k => operand_opening hP hv hg m) fun c hc => ?_
  have hne {k : TokenKind} (hk : k ∈ valueStart) : c.current.kind ≠ k := fun h => hc (h ▸ hk)
  have hnone : g.operators.before? c.current.kind = none := by
    rw [← Option.not_isSome_iff_eq_none, hg.before]
    rintro (h | h)
    · exact hne (by decide) h
    · exact hne (by decide) h
  have hprefixed : operand g value m c = prefixed g value c := by
    simp only [operand, kind_apply, bind_apply]
    refine congrFun (g := prefixed g value) ?_ c
    split
    case h_11 => rfl
    all_goals exact absurd ‹_› (hne (by decide))
  simp only [hprefixed, prefixed, kind_apply, bind_apply, hnone]

/-! ## Operators -/

omit hP hv in
theorem rests_climb (hg : g.Regular) (min : Nat) : ∀ m left, Rests (climb g value min m left)
  | 0, _ => rests_tooManySteps
  | m + 1, left => by
    intro c hk _
    refine .inl ⟨left, c, ?_, rfl⟩
    simp [climb, bind_apply, isAtCast_apply, kind_apply, hk, hg.between_newline, pure_apply]

omit hP hv in
/-- Every kind is read by a reader of its own, or like most. -/
theorem forks_byKind {f : TokenKind → Read β} {y : Read β}
    (hf : ∀ k, Opening F k Q Φ Ψ (f k) ∨ f k = y) (hy : Forks F Q Φ Ψ y) :
    Forks F Q Φ Ψ (kind >>= f) := by
  refine ⟨forward_look fun k => ?_, fun {pre c d} hat hpre => ?_⟩
  · rcases hf k with h | h
    · exact h.forward
    · exact h ▸ hy.forward
  change Forked F Q Ψ (f c.current.kind c) (f d.current.kind d)
  cases pre with
  | nil =>
    obtain ⟨hone, -, hother, -⟩ := hat.here
    rw [hone, hother]
    rcases hf F.other.kind with h' | h'
    · exact h'.reached hat.other rfl
    rcases hf F.one.kind with h | h
    · by_cases he : F.other.kind = F.one.kind
      · rw [he]
        exact h.reached hat.other he
      · exact (h.spent hat.one rfl he).forked
    · rw [h, h']
      exact hy.forked hat hpre
  | cons t pre =>
    rw [hat.there.1, hat.there.2.1]
    rcases hf t.kind with h | h
    · exact h.forked hat rfl hpre
    · rw [h]
      exact hy.forked hat hpre

omit hP hv in
theorem unlessAgain_apply (o : Operator) (y : Read β) (c : Cursor) :
    unlessAgain g o y c =
      if o.grouping = .none ∧ (g.operators.between? c.current.kind).any
        (·.precedence = o.precedence) = true then unexpected g [.newline] c else y c := by
  simp only [unlessAgain, bind_apply, kind_apply, Bool.and_eq_true, decide_eq_true_eq]
  split <;> rfl

omit hP hv in
theorem Rests.unlessAgain (hg : g.Regular) {y : Read β} (h : Rests y) (o : Operator) :
    Rests (unlessAgain g o y) := by
  intro c hk hc
  rw [unlessAgain_apply, hk, hg.between_newline, if_neg (by simp)]
  exact h c hk hc

omit hP hv in
/-- Only there the end of the line is asked for, and there the second run stays if it has come to
the end of the line. -/
theorem Forks.unlessAgain (hg : g.Regular) {o : Operator} (ho : g.operators.between? k = some o)
    {y : Read β} (hy : Forks F (P n []) (P n) Ψ y) (hrests : Rests y) :
    Forks F (P n []) (P n) Ψ (unlessAgain g o y) := by
  refine ⟨forward_look fun _ => ?_, fun {pre c d} hat hpre => ?_⟩
  · exact .ite ((forward_unexpected (by decide)).bind fun _ => hy.forward) hy.forward
  rw [unlessAgain_apply, unlessAgain_apply]
  cases pre with
  | nil =>
    obtain ⟨hone, -, hother, hbeyond⟩ := hat.here
    rw [hone, hother]
    by_cases hagain : o.grouping = .none ∧
        (g.operators.between? F.other.kind).any (·.precedence = o.precedence) = true
    · obtain ⟨o', ho', hp⟩ := Option.any_eq_true _ _ |>.1 hagain.2
      refine .strange fun hoffered => hg.offered hoffered ho' ?_
      rw [hg.alike ho ho' (by simpa using hp), hagain.1]
    rw [if_neg hagain]
    split
    · rename_i hclash
      by_cases hk' : F.other.kind = .newline
      · refine .held ⟨hk', ?_⟩ hpre ?_
        · obtain ⟨o', ho', hp⟩ := Option.any_eq_true _ _ |>.1 hclash.2
          simp [ho', hg.alike ho ho' (by simpa using hp), hclash.1]
        · rcases hrests d (by rw [hother, hk']) (by rw [hbeyond]; exact F.goesOn) with
            ⟨a, d', hd', hup⟩ | h
          · exact .inl ⟨a, d', hd', hup.trans hat.other⟩
          · exact .inr (hbeyond ▸ h)
      · exact .unasked (by simpa [Cursor.stuck] using hk')
    · exact hy.forked hat hpre
  | cons t pre =>
    obtain ⟨hcurrent, hcurrent', hline, -, -⟩ := hat.there
    rw [hcurrent, hcurrent']
    split
    · exact .early (by simpa [Cursor.stuck, hcurrent] using hline)
    · exact hy.forked hat hpre

omit hP hv in
theorem atCast_kind (h : atCast g c = true) : c.current.kind = .keyword .asWord := by
  simpa using (Bool.and_eq_true_iff.1 h).1

omit hP hv in
theorem atCast_cons {t : Token} {ts : List Token} (h : c.ahead = t :: ts) :
    atCast g c = true ↔ c.current.kind = .keyword .asWord ∧ g.namesType t = true := by
  simp [atCast, h]

omit hP hv in
theorem namesType_iff {t : Token} : g.namesType t = true ↔
    t.kind = .keyword .functionWord ∨ t.kind = .name ∧ g.isTypeName t.literal = true := by
  simp [Grammar.namesType]

omit hP hv in
/-- The other token does not make an `as` a cast. -/
theorem forks_ifCast {p : Prop} [Decidable p] {x y : Read β}
    (hx : Opening F (.keyword .asWord) Q
      (fun pre => Φ pre ∧ pre.tail.head?.any g.namesType = true) Ψ x)
    (htakes : ∀ {c : Cursor}, c.ahead ≠ [] → Within c.ahead (x c))
    (hcast : ∀ {c : Cursor} {t ts}, atCast g c = true → c.ahead = t :: ts → ts ≠ [] →
      Within ts (x c)) (hy : Forks F Q Φ Ψ y) :
    Forks F Q Φ Ψ (isAtCast g >>= fun b => if (b && decide p) = true then x else y) := by
  have happly (c : Cursor) : (isAtCast g >>= fun b => if (b && decide p) = true then x else y) c =
      if atCast g c = true ∧ p then x c else y c := by
    simp only [bind_apply, isAtCast_eq, Bool.and_eq_true, decide_eq_true_eq]
    split <;> rfl
  refine ⟨forward_look fun _ => .ite hx.forward hy.forward, fun {pre c d} hat hpre => ?_⟩
  rw [happly, happly]
  cases pre with
  | nil =>
    obtain ⟨hone, hback, hother, hbeyond⟩ := hat.here
    by_cases hd : atCast g d = true ∧ p
    · have hk : F.other.kind = .keyword .asWord := by simpa [hother] using atCast_kind hd.1
      rw [if_pos hd]
      exact hx.reached hat.other hk
    rw [if_neg hd]
    split
    · rename_i hc
      have hk : F.one.kind = .keyword .asWord := by simpa [hone] using atCast_kind hc.1
      exact .beyond (hback ▸ htakes (hback ▸ F.ends (by simp [hk])))
    · exact hy.forked hat hpre
  | cons t pre =>
    obtain ⟨hcurrent, hcurrent', -, hahead, hahead'⟩ := hat.there
    cases pre with
    | cons u pre =>
      have he : atCast g c = atCast g d := by simp [atCast, hcurrent, hcurrent', hahead, hahead']
      rw [he]
      split
      · rename_i hd
        obtain ⟨hk, htype⟩ := (atCast_cons hahead').1 hd.1
        exact hx.forked hat (by rwa [hcurrent'] at hk) ⟨hpre, by simpa using htype⟩
      · exact hy.forked hat hpre
    | nil =>
      by_cases hd : atCast g d = true ∧ p
      · obtain hfunction | ⟨hname, htype⟩ := namesType_iff.1 ((atCast_cons hahead').1 hd.1).2
        · exact .strange (by rw [hfunction]; decide)
        · rw [(F.free hname).2] at htype
          cases htype
      rw [if_neg hd]
      split
      · rename_i hc
        have hne : F.one.kind ≠ .eof := by
          rcases namesType_iff.1 ((atCast_cons hahead).1 hc.1).2 with hk | ⟨hk, -⟩ <;> simp [hk]
        exact .beyond (hcast hc.1 hahead (F.ends hne))
      · exact hy.forked hat hpre

theorem climb_forks (hg : g.Regular) (min : Nat) :
    ∀ m left, Forks F (P n []) (P n) (P n) (climb g value min m left)
  | 0, _ => .tooManySteps
  | m + 1, left => by
    unfold climb
    obtain ⟨htypes, hword⟩ := types_forks hP m n
    have htype (word : Tree) : Forks F (P n []) (P n) (P n) (do
        climb g value min m (Tree.of .cast [left, word, ← types g m])) :=
      htypes.bindPlain fun _ => climb_forks hg min m _
    refine forks_ifCast ?_ (fun hc => ?_) (fun {c t ts} hcast hc hts => ?_) ?_
    · exact (opening_leaf (by decide) hP.cast).bindPlain htype
    · exact (within_next (v := Tree.token) (fun _ => rfl) hc).bind fun word => (htype word).forward
    · have hnext : c.next.current = t ∧ c.next.ahead = ts := by simp [Cursor.next, hc]
      have hw : g.isTypeWord t := (namesType_iff.1 ((atCast_cons hc).1 hcast).2).imp_right
        fun h => ⟨h.1, hg.typeNames h.2⟩
      have hahead := hword c.next (hnext.1 ▸ hw) (by rwa [hnext.2])
      show Within ts ((types g m >>= fun type =>
        climb g value min m (Tree.of .cast [left, .token c.current, type])) c.next)
      exact (hnext.2 ▸ hahead).bind fun _ => (climb_forks hg min m _).forward
    refine forks_byKind (y := pure left) (fun k => ?_) (.pure fun _ h => h)
    cases ho : g.operators.between? k with
    | none => exact .inr rfl
    | some operator =>
      dsimp only
      split
      · exact .inr rfl
      · have hk : k.isPlain = true := hg.between (by simp [ho])
        refine .inl ((opening_leaf (by rintro rfl; cases hk) (hP.plain hk)).bindPlain fun _ => ?_)
        refine (hv n _).bind (fun right => ?_) fun _ right => ?_
        · exact (climb_forks hg min m _).unlessAgain hg ho (rests_climb hg min m _)
        · exact (rests_climb hg min m _).unlessAgain hg operator

end Values

omit hP in
theorem expression_forks (hP : F.Tracks P) (hg : g.Regular) : ∀ m, ValueForks F P (expression g m)
  | 0, _, _ => .tooManySteps
  | m + 1, n, min => by
    have hv := expression_forks hP hg m
    exact (operand_forks hP hv hg m).bind (fun left => climb_forks hP hv hg min m left)
      fun _ left => rests_climb hg min m left

end Read

end StoryLang
