/-
What comes next in a text, for a scanner that decides how to go on.

At the start of a line it is whether there is code or a comment, and which; in
a number whether a point and a digit come; in a symbol whether it has a second
character.

What was read stays: a step only adds tokens. So the first token of a text is
one that the start of its first line with code adds. Where a text is one line
that starts with blanks, that is an indent, unless there is nothing to read.
-/
import StoryLang.Proofs.Token.Transcript
import StoryLang.Token.Scan

namespace StoryLang.Scan

variable {c : Char} {rest : List Char}

/-! ## The start of a line -/

/-- What comes next, as far as lines without code go. -/
inductive Lead where
  | none | newline | hash | slashes | comment | code
  deriving DecidableEq

/-- What a text starts with. -/
def lead : List Char → Lead
  | [] => .none
  | '\n' :: _ => .newline
  | '#' :: _ => .hash
  | '/' :: '/' :: _ => .slashes
  | '/' :: '*' :: _ => .comment
  | _ => .code

theorem lead_cons (hn : c ≠ '\n') (hh : c ≠ '#')
    (hc : c = '/' → rest.head? ≠ some '/' ∧ rest.head? ≠ some '*') : lead (c :: rest) = .code := by
  unfold lead
  split
  · simp_all
  · simp_all
  · simp_all
  · simp_all
  · simp_all
  · rfl

theorem lead_cases (cs : List Char) :
    (lead cs = .none ∧ cs = []) ∨ (∃ ds, lead cs = .newline ∧ cs = '\n' :: ds) ∨
      (∃ ds, lead cs = .hash ∧ cs = '#' :: ds) ∨ (∃ ds, lead cs = .slashes ∧ cs = '/' :: '/' :: ds) ∨
      (∃ ds, lead cs = .comment ∧ cs = '/' :: '*' :: ds) ∨ lead cs = .code := by
  unfold lead
  split <;> simp

theorem lead_newline {cs : List Char} (h : lead cs = .newline) : ∃ more, cs = '\n' :: more := by
  rcases lead_cases cs with ⟨hc, -⟩ | hc | hc | hc | hc | hc <;> simp_all

theorem lead_slashes {cs : List Char} (h : lead cs = .slashes) : ∃ more, cs = '/' :: '/' :: more := by
  rcases lead_cases cs with ⟨hc, -⟩ | hc | hc | hc | hc | hc <;> simp_all

/-- Spaces are as wide as they are long. -/
theorem State.widthFrom_spaces {w : Nat} {cs : List Char} (h : ∀ c ∈ cs, c = ' ') :
    State.widthFrom w cs = w + cs.length := by
  induction cs generalizing w with
  | nil => rfl
  | cons c cs ih =>
    obtain ⟨rfl, hspaces⟩ := List.forall_mem_cons.1 h
    rw [State.widthFrom, if_pos rfl, ih hspaces, List.length_cons]
    omega

/-- Passing the lines without code, by what they start with. -/
theorem State.startLine_eq (fuel : Nat) (s : State) : s.startLine (fuel + 1) =
    match lead s.spot.pastGap.rest with
    | .none => .ok (s.moveTo s.spot.pastGap, false)
    | .newline => State.startLine fuel (s.moveTo s.spot.pastGap.next)
    | .hash => State.startLine fuel (s.moveTo s.spot.pastGap).pastHash
    | .slashes => State.startLine fuel (s.moveTo s.spot.pastGap.lineEnd)
    | .comment =>
      match (s.moveTo s.spot.pastGap).pastComment with
      | .error stop => .error stop
      | .ok u =>
        if lead u.spot.pastGap.rest = .code then
          ((u.moveTo u.spot.pastGap).indentTo (u.spot.pastGap.place.column - 1)).map (·, true)
        else State.startLine fuel (u.moveTo u.spot.pastGap)
    | .code => ((s.moveTo s.spot.pastGap).indentTo s.width).map (·, true) := by
  have hblank (cs : List Char) : State.restIsBlank cs = decide (lead cs ≠ .code) := by
    unfold State.restIsBlank lead
    split <;> simp_all
  rw [State.startLine]
  simp only [hblank]
  generalize hrest : (s.moveTo s.spot.pastGap).spot.rest = rest
  change s.spot.pastGap.rest = rest at hrest
  rw [hrest]
  split
  · rfl
  · rfl
  · rfl
  · rfl
  · rw [show ∀ cs, lead ('/' :: '*' :: cs) = .comment from fun _ => rfl]
    cases (s.moveTo s.spot.pastGap).pastComment with
    | error stop => rfl
    | ok u =>
      simp only [ne_eq, decide_not, Bool.not_eq_true', decide_eq_false_iff_not, ite_not]
      rfl
  · have hcode : lead rest = .code := by
      unfold lead
      split <;> simp_all
    rw [hcode]

/-! ## Words, numbers and symbols -/

theorem wordStart_ne (hc : Grammar.isWordStart c = true) (d : Char) (hd : Grammar.isWordStart d = false) :
    c ≠ d := by
  rintro rfl
  simp [hd] at hc

/-- A letter starts a name or a keyword. -/
theorem State.readNext_word {m : ScanMode} {s : State} (hw : Grammar.isWordStart c = true) :
    s.readNext m c rest = .ok (s.readName m.grammar) := by
  have hne := wordStart_ne hw
  rw [State.readNext, if_neg (hne _ (by decide)), if_neg fun h => hne _ (by decide) h.1,
    if_neg fun h => hne _ (by decide) h.1, if_neg (hne _ (by decide)), if_neg (hne _ (by decide)),
    if_neg fun h => hne _ (by decide) h.1, if_pos hw]

/-- Whether a point and a digit come next. -/
def pointed : List Char → Bool
  | '.' :: d :: _ => Text.isDigit d
  | _ => false

theorem pointed_iff {cs : List Char} :
    pointed cs = true ↔ ∃ d more, cs = '.' :: d :: more ∧ Text.isDigit d = true := by
  unfold pointed
  split
  · simp
  · rename_i hnone
    refine iff_of_false (by simp) ?_
    rintro ⟨d, more, rfl, -⟩
    exact hnone d more rfl

theorem State.readNumber_eq (s : State) : s.readNumber =
    if pointed (s.spot.rest.dropWhile Text.isDigit) then
      .ok (s.push .float (s.spot.rest.takeWhile Text.isDigit ++
        '.' :: ((s.spot.rest.dropWhile Text.isDigit).drop 1).takeWhile Text.isDigit))
    else State.readNumber.intToken s (s.spot.rest.takeWhile Text.isDigit) := by
  unfold State.readNumber
  dsimp only
  split
  · rename_i d more he
    simp only [he, pointed, List.drop_succ_cons, List.drop_zero]
  · rename_i hne
    rw [if_neg]
    intro hp
    obtain ⟨d, more, he, -⟩ := pointed_iff.1 hp
    exact hne d more he

/-- Every symbol of two characters ends in an equals sign. -/
theorem State.pair?_second {c d : Char} {symbol : Symbol} (h : State.pair? c d = some symbol) :
    d = '=' ∧ c ≠ '\\' := by
  have hs := List.find?_some h
  have hall : ∀ s ∈ Symbol.all, (s.text.toList.length ≠ 2 ∨ s.text.toList[1]? = some '=') ∧
      '\\' ∉ s.text.toList := by decide
  have := hall symbol (Symbol.mem_all symbol)
  simp only [decide_eq_true_eq] at hs
  rw [hs, String.toList_ofList] at this
  simp only [List.length_cons, List.length_nil, ne_eq, not_true_eq_false, false_or,
    List.getElem?_cons_succ, List.getElem?_cons_zero, Option.some.injEq, List.mem_cons, not_or] at this
  exact ⟨this.1, fun hc => this.2.1 hc.symm⟩

end StoryLang.Scan

/-! ## A line that starts with blanks -/

namespace StoryLang

namespace Scan

namespace State

variable {m : ScanMode} {s : State} {text : List Char} {fuel w : Nat} {p : State × Bool}

/-! ## What was read stays -/

theorem suffix_closeWider (w : Nat) (place : Position) (indents : List Nat) (tokens : List Token) :
    tokens <:+ (closeWider w place indents tokens).2 := by
  induction indents generalizing tokens with
  | nil => exact List.suffix_refl _
  | cons top indents ih =>
    unfold closeWider
    split
    · exact (List.suffix_cons _ _).trans (ih _)
    · exact List.suffix_refl _

theorem suffix_indentTo {t : State} (hs : s.indentTo w = .ok t) : s.tokens <:+ t.tokens := by
  rcases indentTo_ok hs with rfl | rfl
  · exact List.suffix_cons _ _
  · exact suffix_closeWider _ _ _ _

theorem suffix_startLine (hs : s.startLine fuel = .ok p) : s.tokens <:+ p.1.tokens := by
  obtain ⟨u, hu, rfl | ⟨w, t, -, ht, rfl⟩⟩ := startLine_ok hs
  · exact ⟨[], hu.same.tokens.symm⟩
  · exact hu.same.tokens ▸ suffix_indentTo ht

theorem suffix_onLine {q : State × Bool} (hq : onLine m p = .ok q) : p.1.tokens <:+ q.1.tokens := by
  rcases onLine_ok hq with ⟨-, rfl⟩ | ⟨-, ⟨-, rfl⟩ | ⟨c, rest, s', -, hn, rfl⟩⟩
  · exact List.suffix_refl _
  · exact List.suffix_refl _
  · cases reading_readNext hn with
    | passed _ same => exact ⟨[], same.tokens.symm⟩
    | lineEnd _ t tokens => exact ⟨[t], tokens.symm⟩
    | code t tokens => exact ⟨[t], tokens.symm⟩

theorem suffix_step (hs : s.step m fuel = .ok p) : s.tokens <:+ p.1.tokens := by
  obtain ⟨q, hnext, ⟨-, hstart⟩ | ⟨-, rfl⟩⟩ := step_ok hs
  · exact (suffix_startLine hstart).trans (suffix_onLine hnext)
  · exact suffix_onLine hnext

theorem prefix_finish (s : State) : s.tokens.reverse <+: s.finish := by
  obtain ⟨marks, hfinish, -⟩ := s.finish_eq
  exact ⟨_, hfinish.symm⟩

/-- The tokens that were read are the first ones of the text. -/
theorem prefix_run {tokens : List Token} (hr : (s.run m fuel).tokens = .ok tokens) :
    s.tokens.reverse <+: tokens := by
  obtain ⟨u, hu, rfl⟩ := run_keeps (I := fun u => s.tokens <:+ u.tokens)
    (fun h hs => h.trans (suffix_step hs)) (List.suffix_refl _) hr
  exact (List.reverse_prefix.2 hu).trans u.prefix_finish

/-! ## Blanks in front -/

theorem le_widthFrom (w : Nat) (cs : List Char) : w ≤ widthFrom w cs := by
  induction cs generalizing w with
  | nil => exact Nat.le_refl _
  | cons c cs ih =>
    unfold widthFrom
    split
    · exact Nat.le_trans (Nat.le_succ w) (ih _)
    · split
      · exact Nat.le_trans (by omega) (ih _)
      · exact ih w

/-- Nothing was read, or an indent was read first. -/
def Led (p : State × Bool) : Prop :=
  p.2 = false ∧ p.1.tokens = [] ∨ ∃ t, p.1.tokens = [t] ∧ t.kind = .indent

theorem led_indentTo (hs : (s.indentTo w).map (·, true) = .ok p) (ht : s.tokens = [])
    (hi : s.indents = []) (hw : 0 < w) : Led p := by
  unfold indentTo at hs
  simp only [hi, List.headD_nil, hw, if_true] at hs
  obtain rfl := Except.ok.inj hs
  exact .inr ⟨_, by rw [ht], rfl⟩

/-- Passing blanks again passes nothing. -/
theorem rest_pastGap_pastGap (spot : Spot) : spot.pastGap.pastGap.rest = spot.pastGap.rest :=
  (Spot.rest_pastWhile _ _).trans (dropWhile_pastGap spot)

/-- The first code of a text on one line is led by an indent if it stands behind blanks that
have a width, or behind comments. -/
theorem led_startLine (hk : s.Keeps text) (hl : '\n' ∉ text) (ht : s.tokens = []) (hi : s.indents = [])
    (hw : 0 < s.width ∨ lead s.spot.pastGap.rest ≠ .code) (hs : s.startLine fuel = .ok p) : Led p := by
  induction fuel generalizing s with
  | zero =>
    obtain rfl := Except.ok.inj hs
    exact .inl ⟨rfl, ht⟩
  | succ fuel ih =>
    have hgap := keeps_moveTo hk s.spot.reaches_pastGap
    obtain ⟨passed, htext, -⟩ := hgap.reach
    have htext : text = passed ++ s.spot.pastGap.rest := htext
    -- behind a comment up to the end of the line there is nothing
    have hend : (s.spot.pastGap.lineEnd).rest = [] := by
      rw [Spot.lineEnd, Spot.rest_pastWhile, List.dropWhile_eq_nil_iff]
      intro c hc
      have hmem : c ∈ text := htext ▸ List.mem_append_right _ hc
      exact decide_eq_true fun he => hl (he ▸ hmem)
    have ended {u : State} (hu : u.Keeps text) (ht : u.tokens = []) (hi : u.indents = [])
        (hr : u.spot.rest = []) (hs : u.startLine fuel = .ok p) : Led p := by
      refine ih hu ht hi (.inr ?_) hs
      rw [Spot.pastGap, Spot.rest_pastWhile, hr]
      simp [lead]
    rw [startLine_eq] at hs
    rcases lead_cases s.spot.pastGap.rest with ⟨hc, -⟩ | ⟨ds, hc, hr⟩ | ⟨ds, hc, -⟩ | ⟨ds, hc, -⟩ |
      ⟨ds, hc, hr⟩ | hc <;> simp only [hc] at hs
    · obtain rfl := Except.ok.inj hs
      exact .inl ⟨rfl, ht⟩
    · exact absurd (htext ▸ List.mem_append_right _ (hr ▸ List.mem_cons_self)) hl
    · exact ended ((Skips.pastHash _).keeps hgap) ht hi hend hs
    · exact ended (keeps_moveTo hgap (Spot.reaches_lineEnd _)) ht hi hend hs
    · split at hs
      · simp at hs
      · rename_i u hu
        obtain ⟨htokens, hindents, -⟩ := same_pastComment hu
        have hkeeps := keeps_moveTo ((Skips.pastComment hu).keeps hgap) u.spot.reaches_pastGap
        split at hs
        · -- the column of the code is behind that of the comment
          refine led_indentTo hs (htokens.trans ht) (hindents.trans hi) ?_
          obtain ⟨cs, hcs, hplace⟩ := hkeeps.reach
          have hcs : text = cs ++ u.spot.pastGap.rest := hcs
          have hshorter := rest_pastComment_lt (s := s.moveTo s.spot.pastGap) hr hu
          have hle := u.spot.rest_pastGap_le
          have hcolumn : u.spot.pastGap.place.column = 1 + cs.length := by
            have hplace : u.spot.pastGap.place = Position.first.behind cs := hplace
            rw [hplace, Position.behind_line fun hm => hl (hcs ▸ List.mem_append_left _ hm)]
            rfl
          have hlength := congrArg List.length (htext.symm.trans hcs)
          simp only [List.length_append] at hlength
          change _ < s.spot.pastGap.rest.length at hshorter
          omega
        · rename_i hblank
          refine ih hkeeps (htokens.trans ht) (hindents.trans hi) (.inr ?_) hs
          rw [moveTo, rest_pastGap_pastGap]
          exact hblank
    · exact led_indentTo hs ht hi (hw.resolve_right fun hno => hno hc)

end State

/-- A line that starts with blanks starts with no code. -/
theorem scan_led {m : ScanMode} {blanks source : List Char} {tokens : List Token}
    (hb : ∀ c ∈ blanks, c = ' ' ∨ c = '\t') (hne : blanks ≠ []) (hl : '\n' ∉ source)
    (hts : (scan m (blanks ++ source)).tokens = .ok tokens) : ∀ t ∈ tokens.head?, t.isCode = false := by
  obtain ⟨c, blanks, rfl⟩ := List.exists_cons_of_ne_nil hne
  have hc := hb c List.mem_cons_self
  have hdrop : Text.dropMark (c :: blanks ++ source) = c :: (blanks ++ source) := by
    refine if_neg ?_
    rintro rfl
    revert hc
    decide
  have hl : '\n' ∉ Text.dropMark (c :: blanks ++ source) := by
    refine Text.not_mem_dropMark ?_
    rw [List.mem_append, not_or]
    refine ⟨fun hm => ?_, hl⟩
    have := hb _ hm
    revert this
    decide
  have hw : 0 < (State.start (c :: blanks ++ source)).width := by
    rw [State.width, State.start, hdrop]
    rcases hc with rfl | rfl
    · exact State.le_widthFrom 1 _
    · exact Nat.le_trans (by decide : 1 ≤ 4) (State.le_widthFrom 4 _)
  generalize c :: blanks ++ source = text at *
  obtain ⟨r, hs, hr⟩ := State.run_ok hts
  obtain ⟨q, hs, hstart⟩ := State.step_ok hs
  obtain ⟨-, hq⟩ := hstart.resolve_right (by simp [State.start])
  intro t ht
  rcases State.led_startLine (Good.start _) hl rfl rfl (.inl hw) hq with ⟨hend, hnone⟩ | ⟨u, hu, hk⟩
  · -- only marks of the layout are left at the end
    rcases State.onLine_ok hs with ⟨-, rfl⟩ | ⟨hmore, -⟩
    · obtain ⟨-, rfl⟩ := hr.resolve_left (by simp)
      have hnocode : q.1.finish.filter Token.isCode = [] := by
        rw [State.filter_finish, hnone]
        rfl
      simpa using List.filter_eq_nil_iff.1 hnocode t (List.mem_of_mem_head? ht)
    · simp [hend] at hmore
  · have hstays : r.1.tokens.reverse <+: tokens := by
      rcases hr with ⟨-, hr⟩ | ⟨-, rfl⟩
      · exact State.prefix_run hr
      · exact r.1.prefix_finish
    obtain ⟨others, hothers⟩ := (List.reverse_prefix.2 (hu ▸ State.suffix_onLine hs)).trans hstays
    obtain rfl : u = t := by simpa [← hothers] using ht
    simp [Token.isCode, hk, TokenKind.isLayout]

end Scan

end StoryLang
