/-
Scanning a text whose lines end in a carriage return and a newline.

Lines are shown and trimmed without the carriage return that ends them. So
with one in front of every newline a text has the lines that it had, and the
same place is behind the same characters.

For a scanner the carriage return is a blank in front of the newline. So it goes
beside one of the text with newlines alone: what both have read is the same, but
for a token that ends a line, which is one column further on its line; and where
one cannot go on, the other stops for the same reason.
-/
import StoryLang.Diagnostic.Basic
import StoryLang.Proofs.Follows
import StoryLang.Proofs.Text.Lines
import StoryLang.Proofs.Token.Led
import StoryLang.Proofs.Token.Reach
import StoryLang.Proofs.Token.Transcript

/-! ## Lines -/

namespace StoryLang

namespace Text

variable {cs ds line : List Char} {c d : Char} {p : Char → Bool}

/-- The text with a carriage return in front of every newline. -/
def withReturns : List Char → List Char
  | [] => []
  | c :: cs => if c = '\n' then '\r' :: '\n' :: withReturns cs else c :: withReturns cs

@[simp] theorem withReturns_nil : withReturns [] = [] := rfl

@[simp] theorem withReturns_newline (cs : List Char) :
    withReturns ('\n' :: cs) = '\r' :: '\n' :: withReturns cs := rfl

theorem withReturns_cons (hc : c ≠ '\n') (cs : List Char) :
    withReturns (c :: cs) = c :: withReturns cs := if_neg hc

theorem withReturns_append (cs ds : List Char) :
    withReturns (cs ++ ds) = withReturns cs ++ withReturns ds := by
  induction cs with
  | nil => rfl
  | cons c cs ih =>
    by_cases hc : c = '\n'
    · simp [hc, ih]
    · simp [withReturns_cons hc, ih]

theorem withReturns_line (h : '\n' ∉ line) : withReturns line = line := by
  induction line with
  | nil => rfl
  | cons c line ih =>
    rw [List.mem_cons, not_or] at h
    rw [withReturns_cons (Ne.symm h.1), ih h.2]

/-- Only in front of a newline the text starts otherwise. -/
theorem head?_withReturns (hd : d ≠ '\r' ∧ d ≠ '\n') (cs : List Char) :
    (withReturns cs).head? = some d ↔ cs.head? = some d := by
  cases cs with
  | nil => rfl
  | cons c cs =>
    by_cases hc : c = '\n'
    · simp [hc, Ne.symm hd.1, Ne.symm hd.2]
    · simp [withReturns_cons hc]

/-- What goes on neither over a newline nor over a carriage return goes on as before. -/
theorem takeWhile_withReturns (hn : p '\n' = false) (hr : p '\r' = false) (cs : List Char) :
    (withReturns cs).takeWhile p = cs.takeWhile p := by
  induction cs with
  | nil => rfl
  | cons c cs ih =>
    by_cases hc : c = '\n'
    · simp [hc, hn, hr]
    · simp [withReturns_cons hc, List.takeWhile_cons, ih]

theorem dropWhile_withReturns (hn : p '\n' = false) (hr : p '\r' = false) (cs : List Char) :
    (withReturns cs).dropWhile p = withReturns (cs.dropWhile p) := by
  induction cs with
  | nil => rfl
  | cons c cs ih =>
    by_cases hc : c = '\n'
    · simp [hc, hn, hr]
    · simp only [withReturns_cons hc, List.dropWhile_cons, ih]
      split
      · rfl
      · rw [withReturns_cons hc]

theorem dropMark_withReturns (cs : List Char) :
    dropMark (withReturns cs) = withReturns (dropMark cs) := by
  cases cs with
  | nil => rfl
  | cons c cs =>
    by_cases hc : c = '\n'
    · subst hc
      rfl
    · simp only [withReturns_cons hc, dropMark]
      split
      · rfl
      · rw [withReturns_cons hc]

theorem dropReturn_append (line : List Char) : dropReturn (line ++ ['\r']) = line := by
  simp [dropReturn]

theorem dropReturn_line (h : '\r' ∉ line) : dropReturn line = line :=
  if_neg fun hl => h (List.mem_of_getLast? hl)

/-- A line of such a text, and the lines behind it. -/
theorem withReturns_more (h : '\n' ∉ line) (cs : List Char) :
    withReturns (line ++ '\n' :: cs) = (line ++ ['\r']) ++ '\n' :: withReturns cs := by
  rw [withReturns_append, withReturns_line h]
  simp

theorem lines_withReturns (h : '\r' ∉ cs) : lines (withReturns cs) = lines cs := by
  induction cs using line_induction with
  | last line hl => rw [withReturns_line hl]
  | cons line more hl ih =>
    simp only [List.mem_append, List.mem_cons, not_or] at h
    rw [withReturns_more hl, lines_line (by simpa using hl), lines_line hl, dropReturn_append,
      dropReturn_line h.1, ih h.2.2]

theorem parts_withReturns (h : '\r' ∉ cs) :
    (splitOn '\n' (withReturns cs)).map dropReturn = (splitOn '\n' cs).map dropReturn := by
  induction cs using line_induction with
  | last line hl => rw [withReturns_line hl]
  | cons line more hl ih =>
    simp only [List.mem_append, List.mem_cons, not_or] at h
    rw [withReturns_more hl, splitOn_line (by simpa using hl), splitOn_line hl, List.map_cons,
      List.map_cons, dropReturn_append, dropReturn_line h.1, ih h.2.2]

end Text

/-- The same lines are shown. -/
theorem Diagnostic.lineOf?_withReturns {source : String} (h : '\r' ∉ source.toList) (line : Nat) :
    lineOf? (String.ofList (Text.withReturns source.toList)) line = lineOf? source line := by
  cases line with
  | zero => rfl
  | succ n =>
    have hparts := congrArg (fun parts => parts[n]?.map String.ofList) (Text.parts_withReturns h)
    simp only [List.getElem?_map, Option.map_map] at hparts
    simpa only [lineOf?, String.toList_ofList, Function.comp_def] using hparts

end StoryLang

namespace StoryLang

open Text (withReturns)

namespace Position

/-- The next column. -/
def further (p : Position) : Position := ⟨p.line, p.column + 1⟩

/-- A newline of the text is at the place. -/
def EndsLine (p : Position) (text : List Char) : Prop :=
  ∃ front rest, text = front ++ '\n' :: rest ∧ p = first.behind front

end Position

namespace Spot

variable {a a' : Spot} {c : Char} {cs taken more text : List Char} {f : Char → Bool}

/-- Only in front of a newline a line ends. -/
theorem Reaches.endsLine_iff (h : (start text).Reaches a) :
    a.place.EndsLine text ↔ a.rest.head? = some '\n' := by
  obtain ⟨read, hr, hp⟩ := h
  have hr : text = read ++ a.rest := hr
  constructor
  · rintro ⟨front, rest, hrest, hplace⟩
    -- two places of one text are the same only if the same was read before them
    obtain rfl : read = front :=
      Position.behind_inj ⟨_, hr.symm⟩ ⟨_, hrest.symm⟩ (hp.symm.trans hplace)
    rw [← List.append_cancel_left (hrest.symm.trans hr)]
    rfl
  · intro hhead
    obtain ⟨rest, hrest⟩ := List.head?_eq_some_iff.1 hhead
    exact ⟨read, rest, hrest ▸ hr, hp⟩

/-- The same place of the text with carriage returns. -/
def returned (a : Spot) : Spot := { a with rest := withReturns a.rest }

/-- At the same place of both texts, or in front of a newline and, with its
carriage return, one column further. -/
inductive Beside : Spot → Spot → Prop where
  | same (a : Spot) : Beside a a.returned
  | lineEnd {rest : List Char} {p : Position} {before before' : Option Char} :
    Beside ⟨'\n' :: rest, p, before⟩ ⟨'\n' :: withReturns rest, p.further, before'⟩

/-- The same, and a carriage return in front of a newline is passed. -/
inductive Level : Spot → Spot → Prop where
  | same (a : Spot) (code : a.rest.head? ≠ some '\n') : Level a a.returned
  | lineEnd {rest : List Char} {p : Position} {before before' : Option Char} :
    Level ⟨'\n' :: rest, p, before⟩ ⟨'\n' :: withReturns rest, p.further, before'⟩

theorem Level.beside (h : a.Level a') : a.Beside a' := by
  cases h with
  | same a _ => exact .same a
  | lineEnd => exact .lineEnd

/-! ## What is passed -/

theorem next_returned (hr : a.rest = c :: cs) (hc : c ≠ '\n') :
    a.returned.next = a.next.returned := by
  simp [returned, next, hr, Text.withReturns_cons hc]

theorem past_returned (hr : a.rest = taken ++ more) :
    a.returned.past (withReturns taken) = (a.past taken).returned := by
  induction taken generalizing a with
  | nil => rfl
  | cons c taken ih =>
    have hnext := (next_spec (show a.rest = c :: (taken ++ more) from hr)).1
    by_cases hc : c = '\n'
    · subst hc
      have hpair : a.returned.next.next = a.next.returned := by
        simp [returned, next, hr, Position.after]
      exact (congrArg (Spot.past · (withReturns taken)) hpair).trans (ih hnext)
    · rw [Text.withReturns_cons hc]
      exact (congrArg (Spot.past · (withReturns taken)) (next_returned hr hc)).trans (ih hnext)

theorem past_returned_line (hr : a.rest = taken ++ more) (hl : '\n' ∉ taken) :
    a.returned.past taken = (a.past taken).returned := by
  have h := past_returned hr
  rwa [Text.withReturns_line hl] at h

theorem pastWhile_cons {p : Position} {before : Option Char} :
    (⟨c :: cs, p, before⟩ : Spot).pastWhile f =
      if f c then (⟨cs, p.after c, some c⟩ : Spot).pastWhile f else ⟨c :: cs, p, before⟩ := by
  unfold pastWhile
  dsimp only
  rw [List.takeWhile_cons]
  split <;> rfl

/-- What goes on over carriage returns up to the end of a line gets there in both texts. -/
theorem Beside.pastWhile (h : a.Beside a') (hn : f '\n' = false) (hr : f '\r' = true) :
    (a.pastWhile f).Level (a'.pastWhile f) := by
  cases h with
  | lineEnd =>
    rw [pastWhile_cons, pastWhile_cons, hn]
    exact .lineEnd
  | same a =>
    obtain ⟨rest, p, before⟩ := a
    induction rest generalizing p before with
    | nil => exact .same ⟨[], p, before⟩ (by simp)
    | cons c rest ih =>
      by_cases hc : c = '\n'
      · subst hc
        have hreturn : p.after '\r' = p.further := if_neg (by decide)
        rw [show returned ⟨'\n' :: rest, p, before⟩ =
            ⟨'\r' :: '\n' :: withReturns rest, p, before⟩ from rfl,
          pastWhile_cons, pastWhile_cons, pastWhile_cons, hn, hr, hreturn]
        exact .lineEnd
      · rw [show returned ⟨c :: rest, p, before⟩ = ⟨withReturns (c :: rest), p, before⟩ from rfl,
          Text.withReturns_cons hc, pastWhile_cons, pastWhile_cons]
        split
        · exact ih _ _
        · rw [← Text.withReturns_cons hc]
          exact .same ⟨c :: rest, p, before⟩ (by simpa using hc)

theorem Beside.pastGap (h : a.Beside a') : a.pastGap.Level a'.pastGap :=
  h.pastWhile (by decide) (by decide)

theorem Beside.lineEnd' (h : a.Beside a') : a.lineEnd.Level a'.lineEnd :=
  h.pastWhile (by decide) (by decide)

theorem commentText?_withReturns (cs : List Char) :
    commentText? (withReturns cs) = (commentText? cs).map withReturns := by
  have hcons {c : Char} {cs : List Char} (h : ∀ more, c = '*' → cs ≠ '/' :: more) :
      commentText? (c :: cs) = (commentText? cs).map (c :: ·) :=
    commentText?.eq_3 c cs fun rest hc hcs => h rest hc hcs
  fun_induction commentText? cs with
  | case1 => rfl
  | case2 => rfl
  | case3 c cs hne ih =>
    by_cases hc : c = '\n'
    · subst hc
      rw [Text.withReturns_newline, hcons (by simp), hcons (by simp), ih, Option.map_map,
        Option.map_map, Option.map_map]
      rfl
    · rw [Text.withReturns_cons hc, hcons, ih, Option.map_map, Option.map_map]
      · exact Option.map_congr fun inside _ => (Text.withReturns_cons hc inside).symm
      · intro more hstar hmore
        have hslash := (Text.head?_withReturns (d := '/') (by decide) cs).1 (by simp [hmore])
        obtain ⟨rest, hrest⟩ := List.head?_eq_some_iff.1 hslash
        exact hne rest hstar hrest

theorem pastComment?_returned (hr : a.rest = '/' :: '*' :: cs) :
    a.returned.pastComment? = a.pastComment?.map returned := by
  have hnext := (next_spec hr).1
  have hinside : a.returned.next.next = a.next.next.returned := by
    rw [next_returned hr (by decide), next_returned hnext (by decide)]
  unfold pastComment?
  dsimp only
  rw [hinside, show a.next.next.returned.rest = withReturns a.next.next.rest from rfl,
    commentText?_withReturns, Option.map_map, Option.map_map]
  refine Option.map_congr fun inside hi => ?_
  obtain ⟨more, hmore⟩ := commentText?_prefix hi
  exact past_returned hmore

end Spot

namespace Quotes

variable {quote : Char} {i : Inside} {p : Position} {cs : List Char}

/-- What is not closed where reading stands. -/
def Inside.unclosed : Inside → Option Position
  | .text => none
  | .code opened _ _ => some opened

theorem body_newline : body quote i p ('\n' :: cs) = .error i.unclosed := by
  cases i <;> (rw [body.eq_def]; rfl)

theorem body_return (hq : quote ≠ '\r') :
    body quote i p ('\r' :: '\n' :: cs) = .error i.unclosed := by
  cases i with
  | text =>
    rw [body.eq_def]
    simp [Ne.symm hq, body_newline, Inside.unclosed, Except.map]
  | code opened depth quoted =>
    have hafter : afterCode quote '\r' opened depth quoted = .code opened depth quoted := by
      cases quoted <;> simp [afterCode, Ne.symm hq]
    rw [body.eq_def]
    simp [hafter, body_newline, Inside.unclosed, Except.map]

theorem unclosed_of_map (front : List Char) {o : Option Position}
    {r : Except (Option Position) (List Char × List Char)}
    (h : r.map (fun (text, rest) => (front ++ text, rest)) = .error o) : r = .error o := by
  cases r with
  | error o' => exact congrArg _ (Except.error.inj h)
  | ok q => cases h

/-- Code that is not closed was opened by a brace. -/
theorem body_unclosed {opened : Position} (h : body quote i p cs = .error (some opened)) :
    i.unclosed = some opened ∨ ∃ front rest, cs = front ++ '{' :: rest ∧ opened = p.behind front := by
  have more {p : Position} {cs : List Char} (read : List Char)
      (h : ∃ front rest, cs = front ++ '{' :: rest ∧ opened = (p.behind read).behind front) :
      ∃ front rest, read ++ cs = front ++ '{' :: rest ∧ opened = p.behind front := by
    obtain ⟨front, rest, rfl, hplace⟩ := h
    exact ⟨read ++ front, rest, (List.append_assoc _ _ _).symm, by rw [hplace, Position.behind_append]⟩
  fun_induction body quote i p cs
  case case2 => exact .inl (Except.error.inj h)
  case case7 d ds _ _ _ ih =>
    rcases ih (unclosed_of_map ['\\', d] h) with hin | hread
    · cases hin
    · exact .inr (more ['\\', d] hread)
  case case8 c cs _ _ _ inside ih =>
    rcases ih (unclosed_of_map [c] h) with hin | hread
    · right
      unfold inside at hin
      split at hin
      · rename_i hc
        obtain rfl := Option.some.inj hin
        exact ⟨[], cs, by rw [hc]; rfl, rfl⟩
      · cases hin
    · exact .inr (more [c] hread)
  case case9 => exact .inl (Except.error.inj h)
  case case10 => exact .inl (Except.error.inj h)
  case case11 => exact .inl (Except.error.inj h)
  case case12 c _ _ d ds _ ih =>
    exact (ih (unclosed_of_map [c, d] h)).imp id (more [c, d])
  case case13 c cs _ _ ih =>
    rcases ih (unclosed_of_map [c] h) with hin | hread
    · left
      unfold afterCode at hin
      split_ifs at hin
      · exact hin
      · exact hin
      · exact hin
      · split at hin
        · cases hin
        · cases hin
        · exact hin
      · exact hin
    · exact .inr (more [c] hread)
  -- no code is open, or the string is closed
  all_goals cases h

/-- A string ends where it ended, or is open for the same reason. -/
theorem body_withReturns (hq : quote ≠ '\r') :
    body quote i p (withReturns cs) =
      (body quote i p cs).map fun q => (q.1, withReturns q.2) := by
  fun_induction body quote i p cs
  case case3 => exact body_return hq
  case case9 => exact body_return hq
  case case4 hn =>
    rw [Text.withReturns_cons hn, body.eq_def]
    simp [hn, Except.map]
  case case6 hn hquote =>
    rw [Text.withReturns_cons hn, Text.withReturns_newline, body.eq_def]
    simp [hquote, body_newline, Inside.unclosed, Except.map]
  case case7 d ds hd hn hquote ih =>
    rw [Text.withReturns_cons hn, Text.withReturns_cons hd, body.eq_def]
    simp only [hquote, if_false, if_true, hn, hd, ih]
    cases body quote .text _ ds <;> rfl
  case case8 c cs hn hquote hslash inside ih =>
    rw [Text.withReturns_cons hn, body.eq_def]
    simp only [hquote, if_false, hn, hslash]
    change (body quote inside _ _).map _ = _
    rw [ih]
    cases body quote inside _ cs <;> rfl
  case case11 hn hslash ds =>
    rw [Text.withReturns_cons hn, Text.withReturns_newline, body.eq_def]
    simp [hslash, body_newline, Inside.unclosed, Except.map]
  case case12 hn hslash d ds hd ih =>
    obtain ⟨rfl, rfl⟩ := hslash
    rw [Text.withReturns_cons hn, Text.withReturns_cons hd, body.eq_def]
    simp only [hn, if_false, if_true, hd, and_self, ih]
    cases body quote _ _ ds <;> rfl
  case case13 c cs hn hslash ih =>
    rw [Text.withReturns_cons hn, body.eq_def]
    simp only [hn, hslash, if_false, ih]
    cases body quote _ _ cs <;> rfl
  -- the text ends before the string does
  all_goals simp [body, Text.withReturns, *, Except.map]

end Quotes

/-- A token of a text, and the token of the text with carriage returns: the same, or, where it
ends a line, one column further. -/
inductive Token.Beside (text : List Char) : Token → Token → Prop where
  | same {t : Token} (inLine : ¬ t.position.EndsLine text) : Beside text t t
  | lineEnd {p : Position} (ends : p.EndsLine text) :
    Beside text ⟨.newline, "\n", p⟩ ⟨.newline, "\n", p.further⟩

theorem Token.Beside.kind {text : List Char} {t t' : Token} (h : t.Beside text t') :
    t'.kind = t.kind := by
  cases h <;> rfl

/-! ## States -/

namespace Scan.State

variable {text : List Char} {s s' u : State} {m : ScanMode} {c : Char}
  {rest taken more : List Char}

/-- Two scanners that have read the same of both texts. -/
structure Beside (text : List Char) (s s' : State) : Prop where
  spot : s.spot.Beside s'.spot
  reach : (Spot.start text).Reaches s.spot
  indents : s'.indents = s.indents
  brackets : s'.brackets = s.brackets
  atLineStart : s'.atLineStart = s.atLineStart
  hashComments : s'.hashComments = s.hashComments
  tokens : List.Forall₂ (Token.Beside text) s.tokens s'.tokens

/-- Both stop with the same, where no line ends. -/
structure StopAlike (text : List Char) (stop stop' : Stop) : Prop where
  same : stop' = stop
  inLine : ¬ stop.fault.position.EndsLine text

/-- Both stop with the same, or both go on from such states. -/
abbrev GoOn (text : List Char) (x x' : Except Stop State) : Prop :=
  EndAlike (StopAlike text) (Beside text) x x'

/-- The same, with whether there was any text. -/
abbrev GoOnIf (text : List Char) (x x' : Except Stop (State × Bool)) : Prop :=
  EndAlike (StopAlike text) (fun p p' => p.1.Beside text p'.1 ∧ p'.2 = p.2) x x'

namespace Beside

theorem stop (h : s.Beside text s') {place : Position} (inLine : ¬ place.EndsLine text) {α : Type}
    {A : α → α → Prop} (cause : LexFault.Cause) :
    EndAlike (StopAlike text) A (s.stop cause place) (s'.stop cause place) :=
  .error ⟨by rw [h.hashComments], inLine⟩

theorem moveTo (h : s.Beside text s') {a a' : Spot} (ha : a.Beside a') (hr : s.spot.Reaches a) :
    (s.moveTo a).Beside text (s'.moveTo a') :=
  ⟨ha, h.reach.trans hr, h.indents, h.brackets, h.atLineStart, h.hashComments, h.tokens⟩

theorem pastGap (h : s.Beside text s') :
    (s.moveTo s.spot.pastGap).Beside text (s'.moveTo s'.spot.pastGap) :=
  h.moveTo h.spot.pastGap.beside s.spot.reaches_pastGap

end Beside

/-- Two scanners that are in front of the same code. -/
structure Facing (text : List Char) (s s' : State) (c : Char) (rest : List Char) : Prop where
  beside : s.Beside text s'
  spot : s'.spot = s.spot.returned
  rest : s.spot.rest = c :: rest
  code : c ≠ '\n'

namespace Facing

theorem head (h : Facing text s s' c rest) : s.spot.rest.head? ≠ some '\n' := by
  rw [h.rest]
  simpa using h.code

theorem inLine (h : Facing text s s' c rest) : ¬ s.spot.place.EndsLine text :=
  fun he => h.head (h.beside.reach.endsLine_iff.1 he)

theorem place (h : Facing text s s' c rest) : s'.spot.place = s.spot.place := by
  rw [h.spot]
  rfl

theorem rest' (h : Facing text s s' c rest) : s'.spot.rest = withReturns s.spot.rest :=
  congrArg Spot.rest h.spot

theorem rest_eq (h : Facing text s s' c rest) : s'.spot.rest = c :: withReturns rest := by
  rw [h.rest', h.rest, Text.withReturns_cons h.code]

/-- Both read a token of the line. -/
theorem push (h : Facing text s s' c rest) (hr : s.spot.rest = taken ++ more) (hl : '\n' ∉ taken)
    (kind : TokenKind) : (s.push kind taken).Beside text (s'.push kind taken) where
  spot := by
    simp only [State.push, h.spot, Spot.past_returned_line hr hl]
    exact .same _
  reach := h.beside.reach.trans (s.spot.reaches_past hr)
  indents := h.beside.indents
  brackets := h.beside.brackets
  atLineStart := h.beside.atLineStart
  hashComments := h.beside.hashComments
  tokens := by
    simp only [State.push, h.place]
    exact .cons (.same h.inLine) h.beside.tokens

/-- A comment up to the end of its line. -/
theorem pastSlashes (h : Facing text s s' c rest) :
    (s.moveTo s.spot.lineEnd).Beside text (s'.moveTo s'.spot.lineEnd) :=
  h.beside.moveTo h.beside.spot.lineEnd'.beside s.spot.reaches_lineEnd

theorem pastHash (h : Facing text s s' c rest) : s.pastHash.Beside text s'.pastHash :=
  { h.pastSlashes with
    hashComments := by simp only [State.pastHash, h.place, h.beside.hashComments] }

theorem pastComment (h : Facing text s s' c rest) (hr : s.spot.rest = '/' :: '*' :: more) :
    GoOn text s.pastComment s'.pastComment := by
  unfold State.pastComment
  rw [h.spot, Spot.pastComment?_returned hr]
  cases hc : s.spot.pastComment? with
  | none => exact h.beside.stop h.inLine _
  | some a => exact .ok (h.beside.moveTo (.same a) (Spot.reaches_pastComment hc))

theorem readName (h : Facing text s s' c rest) (g : Grammar) :
    (s.readName g).Beside text (s'.readName g) := by
  unfold State.readName
  rw [h.rest', Text.takeWhile_withReturns (by decide) (by decide)]
  exact h.push (List.takeWhile_append_dropWhile (p := Grammar.isWordChar)).symm
    (not_newline_of (fun d => mem_takeWhile) (by decide)) _

theorem intToken (h : Facing text s s' c rest) (hr : s.spot.rest = taken ++ more)
    (hl : '\n' ∉ taken) :
    GoOn text (readNumber.intToken s taken) (readNumber.intToken s' taken) := by
  unfold readNumber.intToken
  split
  · exact .ok (h.push hr hl _)
  · rw [h.place]
    exact h.beside.stop h.inLine _

theorem pointed_withReturns (cs : List Char) : pointed (withReturns cs) = pointed cs := by
  have hdot {d : Char} {cs : List Char} (hd : d ≠ '.') : pointed (d :: cs) = false := by
    unfold pointed
    split
    · rename_i he
      exact absurd (List.cons.inj he).1 hd
    · rfl
  cases cs with
  | nil => rfl
  | cons c cs =>
    by_cases hc : c = '\n'
    · subst hc
      rw [Text.withReturns_newline, hdot (by decide), hdot (by decide)]
    rw [Text.withReturns_cons hc]
    by_cases hdot' : c = '.'
    · subst hdot'
      cases cs with
      | nil => rfl
      | cons d cs =>
        by_cases hd : d = '\n'
        · subst hd
          rfl
        · rw [Text.withReturns_cons hd]
          rfl
    · rw [hdot hdot', hdot hdot']

theorem readNumber (h : Facing text s s' c rest) : GoOn text s.readNumber s'.readNumber := by
  have hsplit := (List.takeWhile_append_dropWhile (p := Text.isDigit) (l := s.spot.rest)).symm
  have hdigits (cs : List Char) : ∀ d ∈ cs.takeWhile Text.isDigit, Text.isDigit d = true :=
    fun d => mem_takeWhile
  rw [readNumber_eq, readNumber_eq, h.rest', Text.takeWhile_withReturns (by decide) (by decide),
    Text.dropWhile_withReturns (by decide) (by decide), pointed_withReturns]
  split
  · rename_i hp
    obtain ⟨d, digits, hmore, -⟩ := pointed_iff.1 hp
    generalize d :: digits = more at hmore
    rw [hmore] at hsplit ⊢
    rw [Text.withReturns_cons (by decide)]
    simp only [List.drop_succ_cons, List.drop_zero,
      Text.takeWhile_withReturns (p := Text.isDigit) (by decide) (by decide)]
    refine .ok (@push _ _ _ _ _ _ (more.dropWhile Text.isDigit) h ?_ ?_ _)
    · rw [List.append_assoc, List.cons_append, List.takeWhile_append_dropWhile]
      exact hsplit
    · refine not_newline_of (p := fun d => Text.isDigit d || d == '.') (fun d hd => ?_) (by decide)
      simp only [List.mem_append, List.mem_cons] at hd
      rcases hd with hd | rfl | hd
      · simp [hdigits _ d hd]
      · simp
      · simp [hdigits _ d hd]
  · exact h.intToken hsplit (not_newline_of (hdigits _) (by decide))

/-- A brace that opens code is at no line's end. -/
theorem opened_inLine (h : Facing text s s' c rest) {opened : Position}
    (hb : Quotes.body c .text s.spot.next.place s.spot.next.rest = .error (some opened)) :
    ¬ opened.EndsLine text := by
  obtain hno | ⟨front, more, hrest, rfl⟩ := Quotes.body_unclosed hb
  · cases hno
  · obtain ⟨hafter, hplace⟩ := Spot.past_spec hrest
    have hreach := h.beside.reach.trans (s.spot.reaches_next.trans (s.spot.next.reaches_past hrest))
    rw [← hplace, hreach.endsLine_iff, hafter]
    simp

theorem readString (h : Facing text s s' c rest) (hq : c = '"' ∨ c = '\'') :
    GoOn text (s.readString c) (s'.readString c) := by
  have hreturn : c ≠ '\r' := by rcases hq with rfl | rfl <;> decide
  have hnext : s'.spot.next = s.spot.next.returned := by
    rw [h.spot, Spot.next_returned h.rest h.code]
  have hbody : Quotes.body c .text s.spot.next.place (withReturns s.spot.next.rest) =
      (Quotes.body c .text s.spot.next.place s.spot.next.rest).map fun q => (q.1, withReturns q.2) :=
    Quotes.body_withReturns hreturn
  have hbefore : s'.spot.before = s.spot.before := by
    rw [h.spot]
    rfl
  unfold State.readString
  dsimp only
  rw [hnext, show s.spot.next.returned.rest = withReturns s.spot.next.rest from rfl,
    show s.spot.next.returned.place = s.spot.next.place from rfl, h.place, hbefore, hbody]
  cases hb : Quotes.body c .text s.spot.next.place s.spot.next.rest with
  | error unclosed =>
    cases unclosed with
    | none => exact h.beside.stop h.inLine _
    | some opened => exact h.beside.stop (h.opened_inLine hb) _
  | ok q =>
    obtain ⟨raw, after⟩ := q
    obtain ⟨hrest, hraw⟩ := Quotes.body_ok hb
    have hpast := Spot.past_returned_line hrest hraw
    have hclose : (s.spot.next.past raw).rest = c :: after := (Spot.past_spec hrest).1
    refine .ok ⟨?_, ?_, h.beside.indents, h.beside.brackets, h.beside.atLineStart,
      h.beside.hashComments, .cons (.same h.inLine) h.beside.tokens⟩
    · dsimp only
      rw [hpast, Spot.next_returned hclose h.code]
      exact .same _
    · exact h.beside.reach.trans (s.spot.reaches_next.trans
        ((s.spot.next.reaches_past hrest).trans (Spot.reaches_next _)))

theorem readSymbol (h : Facing text s s' c rest) :
    GoOn text (s.readSymbol c rest) (s'.readSymbol c (withReturns rest)) := by
  have hpair : ((withReturns rest).head?.bind fun d =>
      (pair? c d).map fun symbol => (symbol, [c, d])) =
      rest.head?.bind fun d => (pair? c d).map fun symbol => (symbol, [c, d]) := by
    have hnone {d : Char} (hd : d ≠ '=') : pair? c d = none :=
      Option.eq_none_iff_forall_ne_some.2 fun symbol hs => hd (pair?_second hs).1
    cases rest with
    | nil => rfl
    | cons d rest =>
      by_cases hd : d = '\n'
      · subst hd
        simp [hnone]
      · rw [Text.withReturns_cons hd]
        rfl
  unfold State.readSymbol
  rw [hpair]
  split
  · rename_i symbol taken hp
    simp only [Option.bind_eq_some_iff, Option.map_eq_some_iff, Prod.mk.injEq] at hp
    obtain ⟨d, hd, symbol, hp, rfl, rfl⟩ := hp
    obtain ⟨more, hmore⟩ := List.head?_eq_some_iff.1 hd
    have hr : s.spot.rest = [c, d] ++ more := by rw [h.rest, hmore]; rfl
    exact .ok (h.push hr (Symbol.not_newline hp) _)
  · split
    · rename_i symbol _
      have hr : s.spot.rest = [c] ++ rest := h.rest
      have hpush := h.push hr (by simpa using Ne.symm h.code) (.symbol symbol)
      refine .ok ⟨hpush.spot, hpush.reach, h.beside.indents, ?_, h.beside.atLineStart,
        h.beside.hashComments, hpush.tokens⟩
      simp only [h.beside.brackets]
    · rw [h.place]
      exact h.beside.stop h.inLine _

end Facing

end Scan.State

end StoryLang
