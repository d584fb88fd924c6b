/-
What the scanner can do at once.

Where a line starts it skips blanks, comments and empty lines, which leaves the tokens and the
indentations as they are. Then the text ends, or the line with code that comes next is indented,
by an indent or by dedents. Within a line it reads what comes next. Each is taken apart here once;
what a step keeps holds where the text ends (`run_keeps`).
-/
import Mathlib.Data.List.DropRight
import StoryLang.Proofs.Follows
import StoryLang.Proofs.Token.Reach
import StoryLang.Token.Scan

namespace StoryLang.Scan.State

variable {s s' s'' t : State} {m : ScanMode} {fuel w : Nat} {p q : State × Bool}

/-! ## Moving on -/

/-- Moving on leaves the tokens and the indentations as they are. -/
structure Same (s s' : State) : Prop where
  tokens : s'.tokens = s.tokens
  indents : s'.indents = s.indents
  atLineStart : s'.atLineStart = s.atLineStart

theorem Same.trans (h : s.Same s') (h' : s'.Same s'') : s.Same s'' :=
  ⟨h'.1.trans h.1, h'.2.trans h.2, h'.3.trans h.3⟩

theorem same_moveTo (s : State) (spot : Spot) : s.Same (s.moveTo spot) := ⟨rfl, rfl, rfl⟩

theorem same_pastHash (s : State) : s.Same s.pastHash := ⟨rfl, rfl, rfl⟩

theorem pastComment_ok (h : s.pastComment = .ok s') :
    ∃ spot, s.spot.pastComment? = some spot ∧ s' = s.moveTo spot := by
  unfold pastComment at h
  split at h
  · rename_i spot hspot
    exact ⟨spot, hspot, (Except.ok.inj h).symm⟩
  · cases h

theorem same_pastComment (h : s.pastComment = .ok s') : s.Same s' := by
  obtain ⟨spot, -, rfl⟩ := pastComment_ok h
  exact s.same_moveTo spot

/-- What is skipped is in the text, and nothing is read of it. -/
structure Skips (s s' : State) : Prop where
  same : s.Same s'
  reach : s.spot.Reaches s'.spot

namespace Skips

theorem refl (s : State) : s.Skips s := ⟨⟨rfl, rfl, rfl⟩, .refl _⟩

theorem trans (h : s.Skips s') (h' : s'.Skips s'') : s.Skips s'' :=
  ⟨h.same.trans h'.same, h.reach.trans h'.reach⟩

theorem moveTo {spot : Spot} (h : s.spot.Reaches spot) : s.Skips (s.moveTo spot) :=
  ⟨s.same_moveTo spot, h⟩

theorem pastGap (s : State) : s.Skips (s.moveTo s.spot.pastGap) := .moveTo s.spot.reaches_pastGap

theorem pastHash (s : State) : s.Skips s.pastHash := ⟨s.same_pastHash, s.spot.reaches_lineEnd⟩

theorem pastComment (h : s.pastComment = .ok s') : s.Skips s' := by
  obtain ⟨spot, hspot, rfl⟩ := pastComment_ok h
  exact .moveTo (Spot.reaches_pastComment hspot)

end Skips

/-- Behind blanks there are no blanks. -/
theorem dropWhile_pastGap (spot : Spot) :
    spot.pastGap.rest.dropWhile Spot.isGap = spot.pastGap.rest := by
  rw [Spot.pastGap, Spot.rest_pastWhile, List.dropWhile_idempotent]

/-! ## The start of a line -/

/-- A line that is wider than the lines around it is indented, and one that is as wide as one of
them is dedented to it. -/
theorem indentTo_ok (h : s.indentTo w = .ok t) :
    t = { s with
      indents := w :: s.indents
      tokens := ⟨.indent, "", s.spot.place⟩ :: s.tokens
      atLineStart := false } ∨
    t = { s with
      indents := (closeWider w s.spot.place s.indents s.tokens).1
      tokens := (closeWider w s.spot.place s.indents s.tokens).2
      atLineStart := false } := by
  unfold indentTo at h
  dsimp only at h
  split at h
  · exact .inl (Except.ok.inj h).symm
  · split at h
    · exact .inr (Except.ok.inj h).symm
    · cases h

/-- Where a line starts, lines without code are skipped. Then code comes next, and its line is
indented, or nothing does. -/
theorem startLine_ok (h : s.startLine fuel = .ok p) : ∃ u, s.Skips u ∧
    (p = (u, false) ∨ ∃ w t, restIsBlank (u.spot.rest.dropWhile Spot.isGap) = false ∧
      u.indentTo w = .ok t ∧ p = (t, true)) := by
  induction fuel generalizing s with
  | zero => exact ⟨s, .refl s, .inl (Except.ok.inj h).symm⟩
  | succ fuel ih =>
    have hgap : s.Skips (s.moveTo s.spot.pastGap) := .pastGap s
    have further {u : State} (hu : s.Skips u) (h : u.startLine fuel = .ok p) : ∃ u, s.Skips u ∧
        (p = (u, false) ∨ ∃ w t, restIsBlank (u.spot.rest.dropWhile Spot.isGap) = false ∧
          u.indentTo w = .ok t ∧ p = (t, true)) := by
      obtain ⟨v, hv, hends⟩ := ih h
      exact ⟨v, hu.trans hv, hends⟩
    unfold startLine at h
    dsimp only at h
    split at h
    · exact ⟨_, hgap, .inl (Except.ok.inj h).symm⟩
    · exact further (hgap.trans (.moveTo (Spot.reaches_next _))) h
    · exact further (hgap.trans (.pastHash _)) h
    · exact further (hgap.trans (.moveTo (Spot.reaches_lineEnd _))) h
    · split at h
      · cases h
      · rename_i u hu
        have hu := (hgap.trans (.pastComment hu)).trans (.pastGap u)
        split at h
        · exact further hu h
        · rename_i hcode
          obtain ⟨t, ht, rfl⟩ := map_eq_ok.1 h
          refine ⟨_, hu, .inr ⟨_, t, ?_, ht, rfl⟩⟩
          rw [State.moveTo, dropWhile_pastGap]
          exact Bool.eq_false_iff.2 hcode
    · rename_i hnil hnewline hhash hslashes hcomment
      obtain ⟨t, ht, rfl⟩ := map_eq_ok.1 h
      refine ⟨_, hgap, .inr ⟨_, t, ?_, ht, rfl⟩⟩
      rw [State.moveTo, dropWhile_pastGap]
      unfold restIsBlank
      split <;> simp_all [State.moveTo]

/-! ## A step -/

/-- What comes next on a line. -/
def onLine (m : ScanMode) (p : State × Bool) : Except Stop (State × Bool) :=
  if p.2 then
    match p.1.spot.pastGap.rest with
    | [] => .ok (p.1.moveTo p.1.spot.pastGap, false)
    | c :: rest => ((p.1.moveTo p.1.spot.pastGap).readNext m c rest).map (·, true)
  else .ok (p.1, false)

/-- A step sets the layout of a line, if one starts, and reads what comes next on it. -/
theorem step_eq (m : ScanMode) (fuel : Nat) (s : State) : s.step m fuel =
    (if s.atLineStart then s.startLine fuel else .ok (s, true)).bind (onLine m) := by
  unfold State.step
  cases s.atLineStart with
  | true =>
    cases s.startLine fuel <;> rfl
  | false => rfl

/-- What comes next on a line is read unless the text ends. -/
theorem onLine_ok (h : onLine m p = .ok q) :
    p.2 = false ∧ q = (p.1, false) ∨
    p.2 = true ∧ (p.1.spot.pastGap.rest = [] ∧ q = (p.1.moveTo p.1.spot.pastGap, false) ∨
      ∃ c rest s', p.1.spot.pastGap.rest = c :: rest ∧
        (p.1.moveTo p.1.spot.pastGap).readNext m c rest = .ok s' ∧ q = (s', true)) := by
  unfold onLine at h
  split at h
  · rename_i hmore
    refine .inr ⟨hmore, ?_⟩
    split at h
    · rename_i hr
      exact .inl ⟨hr, (Except.ok.inj h).symm⟩
    · rename_i c rest hr
      obtain ⟨s', hn, rfl⟩ := map_eq_ok.1 h
      exact .inr ⟨c, rest, s', hr, hn, rfl⟩
  · rename_i hmore
    exact .inl ⟨by simpa using hmore, (Except.ok.inj h).symm⟩

/-- A line starts if it has to, and then it goes on. -/
theorem step_ok (h : s.step m fuel = .ok q) : ∃ p, onLine m p = .ok q ∧
    (s.atLineStart = true ∧ s.startLine fuel = .ok p ∨ s.atLineStart = false ∧ p = (s, true)) := by
  rw [step_eq] at h
  obtain ⟨p, hp, h⟩ := ok_of_bind h
  refine ⟨p, h, ?_⟩
  split at hp
  · exact .inl ⟨‹_›, hp⟩
  · exact .inr ⟨Bool.eq_false_iff.2 ‹_›, (Except.ok.inj hp).symm⟩

/-! ## All steps -/

theorem run_ok {tokens : List Token} (hr : (s.run m (fuel + 1)).tokens = .ok tokens) :
    ∃ q, s.step m (fuel + 1) = .ok q ∧
      (q.2 = true ∧ (q.1.run m fuel).tokens = .ok tokens ∨ q.2 = false ∧ tokens = q.1.finish) := by
  unfold run at hr
  split at hr
  · simp at hr
  · rename_i u hs
    exact ⟨(u, true), hs, .inl ⟨rfl, hr⟩⟩
  · rename_i u hs
    exact ⟨(u, false), hs, .inr ⟨rfl, (Except.ok.inj hr).symm⟩⟩

/-- What every step keeps holds where the text ends. -/
theorem run_keeps {I : State → Prop}
    (step : ∀ {s : State} {fuel q}, I s → s.step m fuel = .ok q → I q.1) (h : I s)
    {tokens : List Token} (hr : (s.run m fuel).tokens = .ok tokens) :
    ∃ u, I u ∧ tokens = u.finish := by
  induction fuel generalizing s with
  | zero => exact ⟨s, h, (Except.ok.inj hr).symm⟩
  | succ fuel ih =>
    obtain ⟨q, hs, ⟨-, hr⟩ | ⟨-, hfinish⟩⟩ := run_ok hr
    · exact ih (step h hs) hr
    · exact ⟨q.1, step h hs, hfinish⟩

end StoryLang.Scan.State
