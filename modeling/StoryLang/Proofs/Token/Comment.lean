/-
Scanning up to a comment, and over it.

Up to the blanks in front of a seam the scanner makes the same moves whatever
is behind it: it stops with the same fault, or gets to the same state (`reach`).
A text that ends in the middle of a comment is not scanned.

A comment is passed in one move, and what a line without code is made of in one
or two: its comment, if there is one, and its end. The scanner is in the phase
it was in then. A line starts, or it goes on between brackets.
-/
import StoryLang.Proofs.Token.Extended
import StoryLang.Proofs.Token.Relocated
import StoryLang.Proofs.Token.Shared
import StoryLang.Proofs.Token.Taken

/-! ## Up to a seam -/

namespace StoryLang.Scan

open Region (behind behind_cons behind_append)
open State (extend)

variable {m : ScanMode} {p : Phase} {s t : State} {cs ds more taken : List Char}

theorem behind_gap (s : State) : behind m .code s.spot.rest = behind m .code s.spot.pastGap.rest := by
  have hgap : ∀ c ∈ s.spot.rest.takeWhile Spot.isGap, Region.ofCode m c = .code :=
    fun c hc => Region.ofCode_gap (List.mem_takeWhile_imp hc)
  conv_lhs => rw [← List.takeWhile_append_dropWhile (p := Spot.isGap) (l := s.spot.rest)]
  rw [behind_append, Region.behind_code hgap, Spot.pastGap, Spot.rest_pastWhile]

namespace Seam

/-- The end of a text is the end of its last part. -/
theorem back (h : Seam m (cs ++ ds) more) (hcode : behind m .code ds = .code) : Seam m ds more := by
  refine ⟨hcode, h.ends.imp_left fun hl c hc => hl c ?_⟩
  obtain ⟨front, rfl⟩ := List.getLast?_eq_some_iff.1 hc
  rw [← List.append_assoc, List.getLast?_concat]
  rfl

theorem pastGap (h : Seam m s.spot.rest more) : Seam m s.spot.pastGap.rest more := by
  have hcode := h.code
  rw [behind_gap] at hcode
  have hwhole : Seam m (s.spot.rest.takeWhile Spot.isGap ++ s.spot.pastGap.rest) more := by
    rwa [Spot.pastGap, Spot.rest_pastWhile, List.takeWhile_append_dropWhile]
  exact hwhole.back hcode

end Seam

/-- Behind a move from in front of a seam the scanner is in front of it again. -/
theorem Took.seam {q : Phase} (h : Took m s taken q t) (hs : Seam m s.spot.rest more) :
    Seam m t.spot.rest more := by
  have hcode := hs.code
  rw [h.rest] at hcode
  exact Seam.back (h.rest ▸ hs) (h.resumes.code hcode)

theorem Takes.nonempty {rest : List Char} {q : Phase} (h : Takes taken rest q t) : taken ≠ [] := by
  cases h with
  | newline | within | blockComment => exact List.cons_ne_nil _ _
  | lineComment nonempty | token nonempty => exact nonempty

theorem Took.rest_lt {q : Phase} (h : Took m s taken q t) :
    t.spot.rest.length < s.spot.rest.length := by
  have hpos := List.length_pos_iff.2 h.takes.nonempty
  rw [h.rest, List.length_append]
  omega

/-- What is left of the text behind a move is an end of it. -/
theorem Took.suffix {q : Phase} (h : Took m (s.moveTo s.spot.pastGap) taken q t) :
    t.spot.rest <:+ s.spot.rest := by
  have hgap : s.spot.pastGap.rest <:+ s.spot.rest := by
    rw [Spot.pastGap, Spot.rest_pastWhile]
    exact List.dropWhile_suffix _
  exact List.IsSuffix.trans ⟨taken, h.rest.symm⟩ hgap

/-- Up to the blanks in front of a seam, what is behind it does not matter. An invariant of the
moves holds there. -/
theorem reach {I : Phase → State → Prop}
    (hI : ∀ {p q : Phase} {s t : State} {taken : List Char}, I p s → s.move m p = .ok (t, some q) →
      Took m (s.moveTo s.spot.pastGap) taken q t → I q t)
    (h : I p s) (hs : p = .inLine → s.atLineStart = false) (hcode : behind m .code s.spot.rest = .code) :
    (∃ e : Stop, ∀ more, Seam m s.spot.rest more → Comes m ((s.extend more).move m p) e.scanned) ∨
      ∃ q t, I q t ∧ t.spot.pastGap.rest = [] ∧ (q = .inLine → t.atLineStart = false) ∧
        ∀ more, Seam m s.spot.rest more → Goes m p (s.extend more) q (t.extend more) := by
  induction hn : s.spot.rest.length using Nat.strongRecOn generalizing s p with
  | ind n ih =>
    subst hn
    by_cases hrest : s.spot.pastGap.rest = []
    · exact .inr ⟨p, s, h, hrest, hs, fun more _ => .refl p _⟩
    cases hx : s.move m p with
    | error e =>
      refine .inl ⟨e, fun more hseam => ?_⟩
      rw [State.move_extend hseam.pastGap hrest, hx]
      exact .stop e
    | ok r =>
      obtain ⟨t, x⟩ := r
      obtain ⟨-, hend⟩ | ⟨q, taken, rfl, htook⟩ := State.took_act (s := s.moveTo s.spot.pastGap) hs hx
      · exact absurd hend hrest
      have hlt : t.spot.rest.length < s.spot.rest.length :=
        Nat.lt_of_lt_of_le htook.rest_lt s.spot.rest_pastGap_le
      have hseam (more : List Char) (hm : Seam m s.spot.rest more) : Seam m t.spot.rest more :=
        htook.seam hm.pastGap
      have hmove (more : List Char) (hm : Seam m s.spot.rest more) :
          (s.extend more).move m p = .ok (t.extend more, some q) := by
        rw [State.move_extend hm.pastGap hrest, hx]
        rfl
      have hcode' := (hseam [] ⟨hcode, .inr Text.soft_nil⟩).code
      refine (ih _ hlt (hI h hx htook) htook.inLine hcode' rfl).imp ?_ ?_
      · rintro ⟨e, he⟩
        exact ⟨e, fun more hm => (Goes.of_eq (hmove more hm)).comes (he more (hseam more hm))⟩
      · rintro ⟨q', t', hI', hend, hline, hgoes⟩
        exact ⟨q', t', hI', hend, hline, fun more hm => .step (hmove more hm) (hgoes more (hseam more hm))⟩

/-- What is taken with the end of a line is that end. -/
theorem Takes.of_last {rest : List Char} {q : Phase} (h : Takes taken rest q t)
    (hl : taken.getLast? = some '\n') :
    taken = ['\n'] ∧ (q = .fresh ∨ q = .inLine ∧ t.brackets ≠ 0) := by
  cases h with
  | newline => exact ⟨rfl, .inl rfl⟩
  | within opened => exact ⟨rfl, .inr ⟨rfl, opened⟩⟩
  | lineComment _ line => exact absurd (List.mem_of_getLast? hl) line
  | blockComment closed =>
    rw [State.last_comment closed] at hl
    cases hl
  | token _ last => exact absurd hl last

theorem last_pastGap (hl : s.spot.rest.getLast? = some '\n') :
    s.spot.pastGap.rest.getLast? = some '\n' := by
  obtain ⟨front, hf⟩ := List.getLast?_eq_some_iff.1 hl
  rw [Spot.pastGap, Spot.rest_pastWhile, hf, (Text.run_append (.inr fun c hc => by cases hc; decide)).2,
    List.getLast?_concat]

/-- Behind a move in a text that ends with a line, the text ends with a line, or the line ended. -/
theorem Took.last {q : Phase} (h : Took m s taken q t) (hl : s.spot.rest.getLast? = some '\n') :
    t.spot.rest.getLast? = some '\n' ∨
      t.spot.rest = [] ∧ taken = ['\n'] ∧ (q = .fresh ∨ q = .inLine ∧ t.brackets ≠ 0) := by
  rw [h.rest] at hl
  cases hr : t.spot.rest with
  | nil =>
    rw [hr, List.append_nil] at hl
    exact .inr ⟨rfl, h.takes.of_last hl⟩
  | cons c cs =>
    rw [hr, List.getLast?_append_of_ne_nil _ (List.cons_ne_nil _ _)] at hl
    exact .inl hl

/-- A text that ends in the middle of a comment is not scanned. -/
theorem stops_inComment {x : Moved} {r : Scanned} (h : Comes m x r) (hx : x = s.move m p)
    (hs : p = .inLine → s.atLineStart = false) (hl : s.spot.rest.getLast? = some '\n')
    (hcode : behind m .code s.spot.rest ≠ .code) : ∃ e : Stop, r = e.scanned := by
  rw [behind_gap] at hcode
  induction h generalizing s p with
  | stop e => exact ⟨e, rfl⟩
  | done t =>
    obtain ⟨-, hend⟩ | ⟨q, taken, hq, -⟩ := State.took_act (s := s.moveTo s.spot.pastGap) hs hx.symm
    · exact absurd (congrArg (behind m .code) hend) hcode
    · cases hq
  | @on t q r more ih =>
    obtain ⟨hq, -⟩ | ⟨q', taken, hq, htook⟩ :=
      State.took_act (s := s.moveTo s.spot.pastGap) hs hx.symm
    · cases hq
    obtain rfl := Option.some.inj hq
    have hrest : s.spot.pastGap.rest = taken ++ t.spot.rest := htook.rest
    obtain hlast | ⟨hend, rfl, -⟩ := htook.last (last_pastGap hl)
    · refine ih rfl htook.inLine hlast fun hc => hcode ?_
      rw [← behind_gap] at hc
      cases hr : t.spot.rest with
      | nil =>
        rw [hr] at hlast
        cases hlast
      | cons c cs =>
        rw [hrest, hr, htook.resumes c cs (hr ▸ List.prefix_refl _), ← hr, hc]
    · rw [hrest, hend] at hcode
      exact absurd rfl hcode

end StoryLang.Scan

/-! ## Comments -/

namespace StoryLang

namespace Spot

/-- Behind a newline a line starts. -/
theorem past_line {z : Spot} {cs ds : List Char} (hr : z.rest = cs ++ '\n' :: ds) :
    z.past (cs ++ ['\n']) = ⟨ds, ⟨z.place.line + cs.count '\n' + 1, 1⟩, some '\n'⟩ := by
  obtain ⟨hrest, hplace⟩ := past_spec hr
  rw [past_append, ← Position.line_behind_count, ← hplace]
  change (z.past cs).next = _
  rw [next, hrest]
  rfl

theorem pastGap_eq {z : Spot} {w ds : List Char} (hr : z.rest = w ++ ds)
    (hw : ∀ c ∈ w, isGap c = true) (hd : ∀ c ∈ ds.head?, isGap c = false) : z.pastGap = z.past w := by
  have hnone : ([] ++ ds).takeWhile isGap = [].takeWhile isGap := (Text.run_append (.inr hd)).1
  rw [List.nil_append, List.takeWhile_nil] at hnone
  rw [pastGap, pastWhile, hr, List.takeWhile_append_of_pos hw, hnone, List.append_nil]

theorem before_past {z : Spot} {taken rest : List Char} (hr : z.rest = taken ++ rest) (hne : taken ≠ []) :
    (z.past taken).before = taken.getLast? := by
  obtain ⟨front, d, rfl⟩ := List.eq_nil_or_concat' taken |>.resolve_left hne
  rw [List.append_assoc] at hr
  rw [past_append, List.getLast?_concat]
  change (z.past front).next.before = _
  rw [next, (past_spec hr).1]
  rfl

/-- Blanks stay on their line, and each has one column. -/
theorem place_pastGap (z : Spot) :
    z.pastGap.place = ⟨z.place.line, z.place.column + (z.rest.takeWhile isGap).length⟩ := by
  rw [pastGap, pastWhile, (past_spec List.takeWhile_append_dropWhile.symm).2, Position.behind_line]
  exact fun hm => absurd (List.mem_takeWhile_imp hm) (by decide)

theorem isWordChar_gap {c : Char} (h : isGap c = true) : Grammar.isWordChar c = false :=
  Text.isWordChar_enders c (Text.mem_enders (.inl h))

/-- Behind blanks there is no word in front. -/
theorem before_pastGap (z : Spot) : z.pastGap.before.any Grammar.isWordChar =
    ((z.rest.takeWhile isGap).isEmpty && z.before.any Grammar.isWordChar) := by
  rw [pastGap, pastWhile]
  cases hg : z.rest.takeWhile isGap with
  | nil => rfl
  | cons c gap =>
    have hrest : z.rest = (c :: gap) ++ z.rest.dropWhile isGap := by
      rw [← hg, List.takeWhile_append_dropWhile]
    have hgap : ∀ d ∈ c :: gap, isGap d = true := by
      rw [← hg]
      exact fun d hd => List.mem_takeWhile_imp hd
    rw [before_past hrest (List.cons_ne_nil c gap), List.getLast?_eq_some_getLast (List.cons_ne_nil c gap)]
    exact isWordChar_gap (hgap _ (List.getLast_mem _))

/-- A comment is closed by the first mark that can close it. -/
theorem commentText?_of_first {body : List Char} (h : ¬ ['*', '/'] <:+: body ++ ['*']) :
    commentText? (body ++ ['*', '/']) = some (body ++ ['*', '/']) := by
  induction body with
  | nil => rfl
  | cons c body ih =>
    rw [List.cons_append, Region.commentText?_cons]
    · rw [ih fun hb => h (hb.trans (List.suffix_cons c _).isInfix)]
      rfl
    · rintro ⟨rfl, hs⟩
      cases body with
      | nil => cases hs
      | cons d body =>
        obtain rfl : d = '/' := by simpa using hs
        exact h ⟨[], body ++ ['*'], rfl⟩

end Spot

/-- What can stand on a line without code: nothing, or a comment. -/
inductive CommentLine : List Char → Prop where
  | blank : CommentLine []
  | slashes {body : List Char} (line : '\n' ∉ body) : CommentLine ('/' :: '/' :: body)
  | hash {body : List Char} (line : '\n' ∉ body) : CommentLine ('#' :: body)
  /-- It may go over several lines. -/
  | block {body : List Char} (first : ¬ ['*', '/'] <:+: body ++ ['*']) :
    CommentLine ('/' :: '*' :: (body ++ ['*', '/']))

/-- The places of the comments that are reported. -/
def CommentLine.reported (c : List Char) (p : Position) : List Position :=
  if c.head? = some '#' then [p] else []

namespace Scan

/-- The phase behind a comment. -/
def Phase.behindComment : Phase → Phase
  | .inLine => .inLine
  | _ => .commented

namespace State

variable {m : ScanMode} {p : Phase} {w : Nat} {s t : State} {c inside body rest ds : List Char}
  {d : Char}

theorem readOn_ok (hr : s.spot.rest = d :: rest) (h : s.readNext m d rest = .ok t)
    (ht : t.atLineStart = false) : s.readOn m = .ok (t, some .inLine) := by
  unfold readOn
  rw [hr]
  dsimp only
  rw [h]
  change Except.ok (t, some t.phase) = _
  rw [phase, ht]
  rfl

/-- A block comment is passed in one move. -/
theorem act_blockComment (hr : s.spot.rest = '/' :: '*' :: (inside ++ ds))
    (hi : Spot.commentText? inside = some inside) (hs : p = .inLine → s.atLineStart = false) :
    s.act m p w = .ok (s.moveTo (s.spot.past ('/' :: '*' :: inside)), some p.behindComment) := by
  have hpast : s.pastComment = .ok (s.moveTo (s.spot.past ('/' :: '*' :: inside))) := by
    have hr2 : s.spot.next.next.rest = inside ++ ds := (Spot.next_spec (Spot.next_spec hr).1).1
    unfold pastComment Spot.pastComment?
    simp only [hr2, Spot.commentText?_append hi]
    rfl
  cases p with
  | inLine => exact readOn_ok hr hpast (hs rfl)
  | fresh | commented =>
    simp only [act, hr, lead, reduceCtorEq, if_false, hpast]
    rfl

theorem lineEnd_eq (hr : s.spot.rest = c ++ '\n' :: ds) (hl : '\n' ∉ c) :
    s.spot.lineEnd = s.spot.past c := by
  have hc : ∀ d ∈ c, decide (d ≠ '\n') = true := fun d hd => decide_eq_true fun he => hl (he ▸ hd)
  rw [Spot.lineEnd, Spot.pastWhile, hr, List.takeWhile_append_of_pos hc,
    List.takeWhile_cons_of_neg (by decide), List.append_nil]

/-- The comment of a line is passed in one move. -/
theorem act_commentLine (hc : CommentLine c) (hne : c ≠ []) (hr : s.spot.rest = c ++ '\n' :: ds)
    (hs : p = .inLine → s.atLineStart = false) :
    s.act m p w = .ok ({ s with
      spot := s.spot.past c
      hashComments := CommentLine.reported c s.spot.place ++ s.hashComments }, some p.behindComment) := by
  cases hc with
  | blank => exact absurd rfl hne
  | @slashes body line =>
    have hend := lineEnd_eq hr (by simpa using line)
    rw [← hend]
    cases p with
    | inLine => exact readOn_ok hr rfl (hs rfl)
    | fresh | commented =>
      simp only [act, hr, lead, reduceCtorEq, if_false, List.cons_append]
      rfl
  | @hash body line =>
    have hend := lineEnd_eq hr (by simpa using line)
    rw [← hend]
    cases p with
    | inLine => exact readOn_ok hr rfl (hs rfl)
    | fresh | commented =>
      simp only [act, hr, lead, reduceCtorEq, if_false, List.cons_append]
      rfl
  | @block body first =>
    have hr' : s.spot.rest = '/' :: '*' :: ((body ++ ['*', '/']) ++ '\n' :: ds) := hr
    exact act_blockComment hr' (Spot.commentText?_of_first first) hs

/-- Behind a line without code, in front of a text. -/
def pastLine (s : State) (blanks c ds : List Char) : State :=
  { s with
    spot := ⟨ds, ⟨s.spot.place.line + c.count '\n' + 1, 1⟩, some '\n'⟩
    hashComments := CommentLine.reported c (s.spot.place.behind blanks) ++ s.hashComments }

section Blanks

variable {blanks : List Char} (hw : ∀ d ∈ blanks, Spot.isGap d = true)
include hw

theorem move_blockComment (hr : s.spot.rest = blanks ++ '/' :: '*' :: (inside ++ ds))
    (hi : Spot.commentText? inside = some inside) (hs : p = .inLine → s.atLineStart = false) :
    s.move m p = .ok (s.moveTo (s.spot.past (blanks ++ '/' :: '*' :: inside)), some p.behindComment) := by
  have hgap : s.spot.pastGap = s.spot.past blanks :=
    Spot.pastGap_eq hr hw fun d hd => by cases hd; decide
  have hrest : (s.moveTo s.spot.pastGap).spot.rest = '/' :: '*' :: (inside ++ ds) := by
    change s.spot.pastGap.rest = _
    rw [hgap, (Spot.past_spec hr).1]
  rw [move, act_blockComment hrest hi hs, Spot.past_append, ← hgap]
  rfl

theorem move_commentLine (hc : CommentLine c) (hne : c ≠ []) (hr : s.spot.rest = blanks ++ (c ++ '\n' :: ds))
    (hs : p = .inLine → s.atLineStart = false) :
    s.move m p = .ok ({ s with
      spot := s.spot.past (blanks ++ c)
      hashComments := CommentLine.reported c (s.spot.place.behind blanks) ++ s.hashComments },
        some p.behindComment) := by
  have hgap : s.spot.pastGap = s.spot.past blanks := by
    refine Spot.pastGap_eq hr hw ?_
    cases hc <;> rintro d ⟨⟩ <;> decide
  obtain ⟨hrest, hplace⟩ := Spot.past_spec hr
  have hcomment := act_commentLine (m := m) (w := s.indentation p) (s := s.moveTo s.spot.pastGap) hc hne
    (show s.spot.pastGap.rest = c ++ '\n' :: ds by rw [hgap, hrest]) hs
  rw [move, hcomment, Spot.past_append, ← hplace, ← hgap]
  rfl

/-- The end of a line without code. -/
theorem move_newline (hr : s.spot.rest = blanks ++ '\n' :: ds) (hs : p = .inLine → s.atLineStart = false)
    (hb : p = .inLine → s.brackets ≠ 0) :
    s.move m p = .ok (s.moveTo (s.spot.past (blanks ++ ['\n'])),
      some (if p = .inLine then .inLine else .fresh)) := by
  have hgap : s.spot.pastGap = s.spot.past blanks :=
    Spot.pastGap_eq hr hw fun d hd => by cases hd; decide
  have hline : (s.moveTo s.spot.pastGap).spot.rest = '\n' :: ds := by
    change s.spot.pastGap.rest = _
    rw [hgap, (Spot.past_spec hr).1]
  rw [Spot.past_append, ← hgap, move]
  cases p with
  | inLine =>
    refine readOn_ok hline ?_ (hs rfl)
    rw [readNext, if_pos rfl]
    exact if_neg (hb rfl)
  | fresh | commented =>
    simp only [act, hline, lead, reduceCtorEq, if_false]
    rfl

/-- A line without code is passed, and its comment is recorded. -/
theorem goes_commentLine (hc : CommentLine c) (hr : s.spot.rest = blanks ++ (c ++ '\n' :: ds))
    (hp : p = .fresh ∨ p = .inLine ∧ s.brackets ≠ 0) (hs : p = .inLine → s.atLineStart = false) :
    Goes m p s p (s.pastLine blanks c ds) := by
  have hb (h : p = .inLine) : s.brackets ≠ 0 := by
    rcases hp with rfl | hp
    · cases h
    · exact hp.2
  have hsame : (if p = .inLine then Phase.inLine else .fresh) = p := by
    rcases hp with rfl | ⟨rfl, -⟩ <;> rfl
  have hbehind : p.behindComment = .inLine → p = .inLine := by
    rcases hp with rfl | ⟨rfl, -⟩
    · exact fun h => nomatch h
    · exact fun _ => rfl
  have hsame' : (if p.behindComment = .inLine then Phase.inLine else .fresh) = p := by
    rcases hp with rfl | ⟨rfl, -⟩ <;> rfl
  have hnl : '\n' ∉ blanks := fun hm => absurd (hw _ hm) (by decide)
  have hline : s.spot.past (blanks ++ c ++ ['\n']) =
      ⟨ds, ⟨s.spot.place.line + c.count '\n' + 1, 1⟩, some '\n'⟩ := by
    rw [Spot.past_line (hr.trans (List.append_assoc _ _ _).symm), List.count_append,
      List.count_eq_zero_of_not_mem hnl, Nat.zero_add]
  by_cases hne : c = []
  · subst hne
    have hmove := move_newline (m := m) hw hr hs hb
    rw [hsame, ← List.append_nil blanks, hline] at hmove
    exact Goes.of_eq hmove
  · have hrest : (s.spot.past (blanks ++ c)).rest = [] ++ '\n' :: ds := by
      rw [Spot.past_append]
      exact (Spot.past_spec (Spot.past_spec hr).1).1
    have hnil : ∀ d ∈ ([] : List Char), Spot.isGap d = true := fun d hd => nomatch hd
    have hnewline := move_newline (m := m) (p := p.behindComment)
      (s := { s with
        spot := s.spot.past (blanks ++ c)
        hashComments := CommentLine.reported c (s.spot.place.behind blanks) ++ s.hashComments })
      hnil hrest (fun h => hs (hbehind h)) fun h => hb (hbehind h)
    rw [hsame', List.nil_append, moveTo, ← Spot.past_append, hline] at hnewline
    exact .step (move_commentLine hw hc hne hr hs) (Goes.of_eq hnewline)

end Blanks

end State

end Scan

end StoryLang
