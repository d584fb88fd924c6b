/-
Scanning stays in range.

Code in a string is at least one brace deep wherever one of its characters is
read: it starts so, and the brace that would take it to zero ends it. A column
is counted from one behind any character, hence behind a comment.
-/
import StoryLang.Proofs.Token.Steps
import StoryLang.Ranged.Scan

namespace StoryLang.Ranged

open Quotes (Inside)
open Scan (State Stop)

variable {m : ScanMode} {s : State} {quote c : Char} {opened : Position} {depth : Nat}

/-- Code is some braces deep. -/
def Deep : Inside → Prop
  | .text => True
  | .code _ depth _ => 1 ≤ depth

theorem deep_afterCode (h : 1 ≤ depth) (quoted : Bool) :
    Deep (Quotes.afterCode quote c opened depth quoted) := by
  unfold Quotes.afterCode
  split_ifs
  · exact h
  · exact h
  · exact Nat.le_add_left 1 _
  · split
    · trivial
    · trivial
    · exact Nat.le_add_left 1 _
  · exact h

theorem afterCode_eq (h : 1 ≤ depth) (quoted : Bool) :
    afterCode quote c opened depth quoted = some (Quotes.afterCode quote c opened depth quoted) := by
  unfold afterCode Quotes.afterCode
  split_ifs
  · rfl
  · rfl
  · rfl
  · rw [minus?_of_le h]
    match depth with
    | 1 => rfl
    | n + 2 => rfl
  · rfl

theorem body_eq {inside : Inside} (h : Deep inside) (p : Position) (cs : List Char) :
    body quote inside p cs = some (Quotes.body quote inside p cs) := by
  fun_induction Quotes.body quote inside p cs <;> rw [body.eq_def]
  case case7 hd hn hq ih => simp only [hn, hq, hd, if_false, if_true, ih trivial, Option.map_some]
  case case8 c cs hn hq hb inside ih =>
    have hdeep : Deep inside := by
      unfold inside
      split
      · exact Nat.le_refl 1
      · trivial
    simp only [hn, hq, hb, if_false]
    rw [ih hdeep, Option.map_some]
  case case12 c hn hb d ds hd ih =>
    dsimp only
    rw [if_neg hn, if_pos hb, if_neg hd, ih h, Option.map_some]
  case case13 quoted _ c cs hn hb ih =>
    simp only [hn, hb, if_false, afterCode_eq h, Option.bind_some, ih (deep_afterCode h quoted),
      Option.map_some]
  -- elsewhere reading ends, and nothing is counted
  all_goals simp_all

theorem readString_eq (s : State) (quote : Char) : readString s quote = some (s.readString quote) := by
  unfold readString State.readString
  dsimp only
  rw [body_eq (show Deep .text from trivial)]
  cases Quotes.body quote .text s.spot.next.place s.spot.next.rest with
  | ok read => rfl
  | error opened => cases opened <;> rfl

theorem readNext_eq (m : ScanMode) (s : State) (c : Char) (rest : List Char) :
    readNext m s c rest = some (s.readNext m c rest) := by
  unfold readNext
  rw [readString_eq, readString_eq]
  split_ifs with hdouble hsingle
  · simp [State.readNext, hdouble]
  · simp [State.readNext, hsingle]
  · rfl

/-- Behind a comment there is a column in front. -/
theorem column_pastComment {s' : State} (h : s.pastComment = .ok s') :
    1 ≤ s'.spot.pastGap.place.column := by
  obtain ⟨spot, hspot, rfl⟩ := State.pastComment_ok h
  obtain ⟨taken, ht, rfl⟩ := Option.map_eq_some_iff.1 hspot
  obtain ⟨rest, hrest⟩ := Spot.commentText?_prefix ht
  obtain ⟨front, rfl⟩ := Spot.commentText?_closed ht
  have hplace := (Spot.past_spec hrest).2
  obtain ⟨gap, -, hgap⟩ := (s.spot.next.next.past (front ++ ['*', '/'])).reaches_pastGap
  rw [State.moveTo, hgap, hplace, Position.behind_append]
  exact Position.column_behind (Position.column_after _ '/') gap

theorem startLine_eq (fuel : Nat) (s : State) : startLine fuel s = some (s.startLine fuel) := by
  induction fuel generalizing s with
  | zero => rfl
  | succ fuel ih =>
    unfold startLine State.startLine
    dsimp only
    split <;> rename_i hrest
    · simp only [hrest]
    · simp only [hrest, ih]
    · simp only [hrest, ih]
    · simp only [hrest, ih]
    · cases hc : (s.moveTo s.spot.pastGap).pastComment with
      | error stop => simp only [hrest]
      | ok s' =>
        have hcolumn : 1 ≤ (s'.moveTo s'.spot.pastGap).spot.place.column := column_pastComment hc
        simp only [hrest, ih, minus?_of_le hcolumn, Option.map_some]
        split <;> rfl
    · simp_all

theorem readLine_eq (m : ScanMode) (s : State) :
    readLine m s = some (State.onLine m (s, true)) := by
  unfold readLine State.onLine
  dsimp only [State.moveTo]
  rw [if_pos rfl]
  cases s.spot.pastGap.rest with
  | nil => rfl
  | cons c rest =>
    dsimp only
    rw [readNext_eq, Option.map_some]

theorem step_eq (m : ScanMode) (fuel : Nat) (s : State) : step m fuel s = some (s.step m fuel) := by
  have hstart : (if s.atLineStart then startLine fuel s else some (.ok (s, true))) =
      some (if s.atLineStart then s.startLine fuel else .ok (s, true)) := by
    rw [startLine_eq]
    split <;> rfl
  rw [step, State.step_eq, hstart, Option.bind_some]
  rcases (if s.atLineStart then s.startLine fuel else .ok (s, true)) with stop | ⟨s', more⟩
  · rfl
  · cases more
    · rfl
    · exact readLine_eq m s'

theorem run_eq (m : ScanMode) (fuel : Nat) (s : State) : run m fuel s = some (s.run m fuel) := by
  induction fuel generalizing s with
  | zero => rfl
  | succ fuel ih =>
    rw [run, State.run, step_eq, Option.bind_some]
    rcases s.step m (fuel + 1) with stop | ⟨s', more⟩
    · rfl
    · cases more
      · rfl
      · exact ih s'

theorem scan_eq (m : ScanMode) (text : List Char) : scan m text = some (StoryLang.scan m text) :=
  run_eq m _ _

end StoryLang.Ranged
