/-
The moves of a scanner.

A step of the scanner passes all lines without code, however many there are,
and then reads a token. Cut into moves that each take one thing of the text, a
blank line, a comment or a token, scanning needs no bound on its steps: it
`Comes` to the one end that the moves lead to, and that is what `scan` gives
(`comes_scan`). Two scanners that make related moves come to related ends
(`Comes.related`).

Whether the width of a line is still to be measured is the phase of the
scanner. Behind a comment the line has no width, but its code has a column.
-/
import StoryLang.Proofs.Follows
import StoryLang.Proofs.Token.Led
import StoryLang.Proofs.Token.Transcript

namespace StoryLang

namespace Spot

theorem pastWhile_pastWhile (s : Spot) (p : Char → Bool) :
    (s.pastWhile p).pastWhile p = s.pastWhile p := by
  have hnone : (s.pastWhile p).rest.takeWhile p = [] := by
    rw [rest_pastWhile]
    cases h : s.rest.dropWhile p with
    | nil => rfl
    | cons c rest =>
      have hc := List.head?_dropWhile_not p s.rest
      rw [h] at hc
      exact List.takeWhile_cons_of_neg (by simpa using hc)
  conv_lhs => rw [pastWhile, hnone]
  rfl

/-- At the end of a line there is its newline, or nothing. -/
theorem lineEnd_cases (s : Spot) : s.lineEnd.rest = [] ∨ ∃ rest, s.lineEnd.rest = '\n' :: rest := by
  rw [lineEnd, rest_pastWhile]
  have hc := List.head?_dropWhile_not (· ≠ '\n') s.rest
  cases h : s.rest.dropWhile (· ≠ '\n') with
  | nil => exact .inl rfl
  | cons c rest =>
    rw [h] at hc
    obtain rfl : c = '\n' := by simpa using hc
    exact .inr ⟨rest, rfl⟩

theorem pastGap_pastGap (s : Spot) : s.pastGap.pastGap = s.pastGap := s.pastWhile_pastWhile isGap

end Spot

namespace Scan

/-- How much of its line the scanner has seen. -/
inductive Phase where
  /-- Nothing yet: it is at the start of the line. -/
  | fresh
  /-- A comment, and no code. -/
  | commented
  /-- Code, or the line goes on between brackets. -/
  | inLine
  deriving DecidableEq

/-- What a move leads to: a fault, the end of the text, or another phase. -/
abbrev Moved := Except Stop (State × Option Phase)

namespace State

/-- The phase behind a token. -/
def phase (s : State) : Phase := if s.atLineStart then .fresh else .inLine

/-- The width that code has which comes next. -/
def indentation (s : State) : Phase → Nat
  | .fresh => s.width
  | _ => s.spot.pastGap.place.column - 1

/-- Reads what comes next on a line. -/
def readOn (m : ScanMode) (s : State) : Moved :=
  match s.spot.rest with
  | [] => .ok (s, none)
  | c :: rest => (s.readNext m c rest).map fun t => (t, some t.phase)

/-- What is done behind the blanks, where code would have the width `w`. -/
def act (m : ScanMode) (p : Phase) (w : Nat) (s : State) : Moved :=
  if p = .inLine then s.readOn m
  else
    match lead s.spot.rest with
    | .none => .ok (s, none)
    | .newline => .ok (s.moveTo s.spot.next, some .fresh)
    | .hash => .ok (s.pastHash, some .commented)
    | .slashes => .ok (s.moveTo s.spot.lineEnd, some .commented)
    | .comment => s.pastComment.map fun t => (t, some .commented)
    | .code => (s.indentTo w).bind (readOn m)

/-- One move: the blanks, and what comes behind them. -/
def move (m : ScanMode) (p : Phase) (s : State) : Moved :=
  (s.moveTo s.spot.pastGap).act m p (s.indentation p)

variable {m : ScanMode} {p : Phase} {w : Nat} {s : State}

theorem act_inLine : s.act m .inLine w = s.readOn m := rfl

theorem act_code (hp : p ≠ .inLine) (hl : lead s.spot.rest = .code) :
    s.act m p w = (s.indentTo w).bind (readOn m) := by
  rw [act, if_neg hp, hl]

end State

open State (act readOn onLine)

/-- What scanning gives that stops. -/
def Stop.scanned (stop : Stop) : Scanned := ⟨.error stop.fault, stop.hashComments.reverse⟩

/-- What scanning gives at the end of the text. -/
def State.scanned (s : State) : Scanned := ⟨.ok s.finish, s.hashComments.reverse⟩

/-- What scanning comes to if it goes on from where a move led. -/
inductive Comes (m : ScanMode) : Moved → Scanned → Prop where
  | stop (stop : Stop) : Comes m (.error stop) stop.scanned
  | done (s : State) : Comes m (.ok (s, none)) s.scanned
  | on {s : State} {p : Phase} {r : Scanned} (more : Comes m (s.move m p) r) :
    Comes m (.ok (s, some p)) r

/-- Some moves, one after the other. -/
inductive Goes (m : ScanMode) : Phase → State → Phase → State → Prop where
  | refl (p : Phase) (s : State) : Goes m p s p s
  | step {p q p' : Phase} {s t s' : State} (move : s.move m p = .ok (t, some q))
    (more : Goes m q t p' s') : Goes m p s p' s'

variable {m : ScanMode} {s t u : State} {p q : Phase} {x : Moved} {r r' : Scanned}

theorem Goes.of_eq (h : s.move m p = .ok (t, some q)) : Goes m p s q t := .step h (.refl q t)

/-- Scanning comes to one end only. -/
theorem Comes.unique (h : Comes m x r) (h' : Comes m x r') : r = r' := by
  induction h with
  | stop => cases h'; rfl
  | done => cases h'; rfl
  | on _ ih =>
    cases h' with
    | on more => exact ih more

theorem Goes.comes (h : Goes m p s q t) (hr : Comes m (t.move m q) r) : Comes m (s.move m p) r := by
  induction h with
  | refl => exact hr
  | step move _ ih => exact move ▸ .on (ih hr)

theorem Goes.on (h : Goes m p s q t) (hr : Comes m (s.move m p) r) : Comes m (t.move m q) r := by
  induction h with
  | refl => exact hr
  | step move _ ih =>
    rw [move] at hr
    cases hr with
    | on more => exact ih more

theorem Goes.trans {p' : Phase} {s' : State} (h : Goes m p s q t) (h' : Goes m q t p' s') :
    Goes m p s p' s' := by
  induction h with
  | refl => exact h'
  | step move _ ih => exact .step move (ih h')

/-! ## The moves of a step -/

/-- Where no code comes, it does not matter what the line has had. -/
theorem move_commented (h : lead s.spot.pastGap.rest ≠ .code) :
    s.move m .commented = (s.moveTo s.spot.pastGap).move m .fresh := by
  unfold State.move act
  simp only [State.moveTo, reduceCtorEq, if_false, Spot.pastGap_pastGap]
  split <;> first | rfl | contradiction

/-- No code comes at the end of a line. -/
theorem lead_lineEnd (s : Spot) : lead s.lineEnd.pastGap.rest ≠ .code := by
  rw [Spot.pastGap, Spot.rest_pastWhile]
  rcases s.lineEnd_cases with h | ⟨rest, h⟩
  · rw [h]
    decide
  · rw [h, List.dropWhile_cons_of_neg (by decide)]
    intro hl
    cases hl

theorem move_fresh (h : lead s.spot.pastGap.rest ≠ .code) :
    s.move m .commented = s.move m .fresh := by
  unfold State.move act
  simp only [State.moveTo, reduceCtorEq, if_false]
  split <;> first | rfl | contradiction

/-- The end of a step, as the end of a move. -/
def ofStep (q : State × Bool) : State × Option Phase := (q.1, if q.2 then some q.1.phase else none)

theorem map_onLine (s : State) :
    (onLine m (s, true)).map ofStep = (s.moveTo s.spot.pastGap).readOn m := by
  unfold State.onLine readOn
  simp only [if_true]
  change _ = match s.spot.pastGap.rest with
    | [] => Except.ok (s.moveTo s.spot.pastGap, none)
    | c :: rest => ((s.moveTo s.spot.pastGap).readNext m c rest).map fun t => (t, some t.phase)
  cases s.spot.pastGap.rest with
  | nil => rfl
  | cons c rest =>
    dsimp only
    generalize (s.moveTo s.spot.pastGap).readNext m c rest = y
    cases y <;> rfl

/-- Code is read where its line has got its indentation. -/
theorem indentTo_onLine (w : Nat) :
    ((((s.moveTo s.spot.pastGap).indentTo w).map (·, true)).bind (onLine m)).map ofStep =
      ((s.moveTo s.spot.pastGap).indentTo w).bind (readOn m) := by
  cases h : (s.moveTo s.spot.pastGap).indentTo w with
  | error stop => rfl
  | ok u =>
    have hspot : u.spot = s.spot.pastGap := (State.adds_indentTo h).2
    change (onLine m (u, true)).map ofStep = u.readOn m
    rw [map_onLine, hspot, Spot.pastGap_pastGap, ← hspot]
    rfl

/-- At the start of a line, moves do what a step does. -/
theorem comes_startLine {fuel : Nat} (hf : s.spot.rest.length < fuel)
    (h : Comes m (((s.startLine fuel).bind (onLine m)).map ofStep) r) :
    Comes m (s.move m .fresh) r := by
  induction fuel generalizing s with
  | zero => omega
  | succ fuel ih =>
    have hgap := Nat.le_trans s.spot.rest_pastGap_le (Nat.le_of_lt_succ hf)
    rw [State.startLine_eq] at h
    unfold State.move act
    simp only [reduceCtorEq, if_false]
    have hrest : (s.moveTo s.spot.pastGap).spot.rest = s.spot.pastGap.rest := rfl
    rw [hrest]
    rcases lead_cases s.spot.pastGap.rest with ⟨hl, -⟩ | ⟨ds, hl, hr⟩ | ⟨ds, hl, hr⟩ | ⟨ds, hl, hr⟩ |
      ⟨ds, hl, hr⟩ | hl
    all_goals simp only [hl] at h ⊢
    · exact h
    · refine .on (ih ?_ h)
      have hn : s.spot.pastGap.next.rest.length < s.spot.pastGap.rest.length := by
        rw [(Spot.next_spec hr).1, hr]
        exact Nat.lt_succ_self _
      exact Nat.lt_of_lt_of_le hn hgap
    · refine .on ?_
      rw [move_fresh (lead_lineEnd _)]
      exact ih (Nat.lt_of_lt_of_le (Spot.rest_lineEnd_lt hr (by decide)) hgap) h
    · refine .on ?_
      rw [move_fresh (lead_lineEnd _)]
      exact ih (Nat.lt_of_lt_of_le (Spot.rest_lineEnd_lt hr (by decide)) hgap) h
    · cases hp : (s.moveTo s.spot.pastGap).pastComment with
      | error stop =>
        rw [hp] at h
        exact h
      | ok u =>
        have hlt := State.rest_pastComment_lt hr hp
        simp only [hp] at h
        refine .on ?_
        split at h
        · rename_i hcode
          rw [indentTo_onLine] at h
          rw [State.move, State.act_code (by decide) hcode]
          exact h
        · rename_i hcode
          rw [move_commented hcode]
          refine ih (Nat.lt_of_le_of_lt u.spot.rest_pastGap_le ?_) h
          exact Nat.lt_of_lt_of_le hlt hgap
    · rw [indentTo_onLine] at h
      exact h

/-- Scanning a text comes to what the scanner gives, from any state it may be in. -/
theorem comes_run {n : Nat} (hn : s.spot.rest.length < n) : Comes m (s.move m s.phase) (s.run m n) := by
  induction n generalizing s with
  | zero => omega
  | succ n ih =>
    have hstep : Comes m ((s.step m (n + 1)).map ofStep) (s.run m (n + 1)) := by
      unfold State.run
      cases hx : s.step m (n + 1) with
      | error stop => exact .stop stop
      | ok q =>
        obtain ⟨u, more⟩ := q
        obtain ⟨-, hless, -⟩ := State.adds_step hn hx
        cases more with
        | true => exact .on (ih (Nat.lt_of_lt_of_le (hless rfl) (Nat.le_of_lt_succ hn)))
        | false => exact .done u
    rw [State.step_eq] at hstep
    unfold State.phase
    cases hs : s.atLineStart <;> rw [hs] at hstep
    case true => exact comes_startLine hn hstep
    case false =>
      have hline : Comes m ((onLine m (s, true)).map ofStep) (s.run m (n + 1)) := hstep
      rw [map_onLine] at hline
      exact hline

/-- Scanning a text comes to what `scan` gives. -/
theorem comes_scan (m : ScanMode) (text : List Char) :
    Comes m ((State.start text).move m .fresh) (scan m text) :=
  comes_run (s := .start text) (Nat.lt_succ_of_le (Text.length_dropMark text))

/-! ## Two scanners -/

/-- Two scanners are at the end of their texts, or both go on in the same phase. -/
inductive Alongside (D : State → State → Prop) (Rel : Phase → State → State → Prop) :
    State × Option Phase → State × Option Phase → Prop where
  | done {s s' : State} (ended : D s s') : Alongside D Rel (s, none) (s', none)
  | on {p : Phase} {s s' : State} (related : Rel p s s') : Alongside D Rel (s, some p) (s', some p)

/-- Scanners that make related moves come to related ends. -/
theorem Comes.related {E : Stop → Stop → Prop} {D : State → State → Prop}
    {Rel : Phase → State → State → Prop}
    (hmove : ∀ p s s', Rel p s s' → EndAlike E (Alongside D Rel) (s.move m p) (s'.move m p))
    {x' : Moved} (hx : EndAlike E (Alongside D Rel) x x') (h : Comes m x r) (h' : Comes m x' r') :
    (∃ e e', E e e' ∧ r = e.scanned ∧ r' = e'.scanned) ∨
      ∃ t t', D t t' ∧ r = t.scanned ∧ r' = t'.scanned := by
  induction h generalizing x' with
  | stop stop =>
    cases hx with
    | error reasons =>
      cases h'
      exact .inl ⟨_, _, reasons, rfl, rfl⟩
  | done t =>
    cases hx with
    | ok results =>
      cases results with
      | done ended =>
        cases h'
        exact .inr ⟨_, _, ended, rfl, rfl⟩
  | on more ih =>
    cases hx with
    | ok results =>
      cases results with
      | on related =>
        cases h' with
        | on more' => exact ih (hmove _ _ _ related) more'

end Scan

end StoryLang
