/-
What a move takes of the text.

It is an end of a line, a comment or a token, and reading goes on behind it as
if the text started there (`Resumes`). Ends of lines and comments lead to the
phases they are named for, and a token stays in its line.
-/
import StoryLang.Proofs.Token.Extended

namespace StoryLang.Scan

open Region (behind behind_cons behind_append)
open Spot (commentText?)

variable {m : ScanMode} {c : Char} {taken rest r : List Char}

/-- Comments and strings behind the taken characters are where they would be without those. -/
def Resumes (m : ScanMode) (taken rest : List Char) : Prop :=
  ∀ c ds, c :: ds <+: rest → behind m .code (taken ++ c :: ds) = behind m .code (c :: ds)

namespace Resumes

theorem of_code (h : behind m .code taken = .code) : Resumes m taken rest := by
  intro c ds _
  rw [behind_append, h]

theorem of_line (hc : behind m .code taken = .line) (hr : ∀ c ∈ rest.head?, c = '\n') :
    Resumes m taken rest := by
  intro c ds hp
  obtain ⟨more, rfl⟩ := hp
  obtain rfl := hr c rfl
  rw [behind_append, hc]
  rfl

/-- A text that ends in code ends in code behind what is taken of it. -/
theorem code (h : Resumes m taken rest) (hc : behind m .code (taken ++ rest) = .code) :
    behind m .code rest = .code := by
  cases rest with
  | nil => rfl
  | cons c ds => rwa [h c ds (List.prefix_refl _)] at hc

end Resumes

/-- The kinds of things that a move takes, with what comes behind them, and where each leads. -/
inductive Takes : List Char → List Char → Phase → State → Prop where
  | newline {rest : List Char} {t : State} : Takes ['\n'] rest .fresh t
  /-- The line goes on between brackets. -/
  | within {rest : List Char} {t : State} (opened : t.brackets ≠ 0) : Takes ['\n'] rest .inLine t
  | lineComment {taken rest : List Char} {t : State} (nonempty : taken ≠ []) (line : '\n' ∉ taken)
    (ends : ∀ c ∈ rest.head?, c = '\n') : Takes taken rest .commented t
  | blockComment {inside rest : List Char} {t : State} (closed : commentText? inside = some inside) :
    Takes ('/' :: '*' :: inside) rest .commented t
  | token {taken rest : List Char} {t : State} (nonempty : taken ≠ []) (last : taken.getLast? ≠ some '\n') :
    Takes taken rest .inLine t

/-- A move took some characters, and stands behind them. -/
structure Took (m : ScanMode) (s : State) (taken : List Char) (q : Phase) (t : State) : Prop where
  rest : s.spot.rest = taken ++ t.spot.rest
  spot : t.spot = s.spot.past taken
  takes : Takes taken t.spot.rest q t
  resumes : Resumes m taken t.spot.rest
  inLine : q = .inLine → t.atLineStart = false

namespace State

variable {s t : State} {more : List Char}

/-- Something of a line was read. -/
structure Reads (m : ScanMode) (s : State) (taken : List Char) (t : State) : Prop where
  rest : s.spot.rest = taken ++ t.spot.rest
  spot : t.spot = s.spot.past taken
  nonempty : taken ≠ []
  last : taken.getLast? ≠ some '\n'
  resumes : Resumes m taken t.spot.rest
  atLineStart : t.atLineStart = s.atLineStart

theorem reads_of (hr : s.spot.rest = taken ++ r) (ht : t.spot = s.spot.past taken) (hne : taken ≠ [])
    (hl : '\n' ∉ taken) (hm : Resumes m taken r) (ha : t.atLineStart = s.atLineStart) :
    s.Reads m taken t := by
  have hrest : t.spot.rest = r := by rw [ht, (Spot.past_spec hr).1]
  refine ⟨hrest ▸ hr, ht, hne, fun hlast => hl (List.mem_of_getLast? hlast), hrest ▸ hm, ha⟩

/-! ## Comments -/

theorem takes_lineEnd {mark : List Char} (hr : s.spot.rest = mark ++ rest)
    (hm : mark = ['/', '/'] ∨ mark = ['#']) (ht : t.spot = s.spot.lineEnd)
    (ha : t.atLineStart = s.atLineStart) :
    ∃ taken, s.Reads m taken t ∧ Takes taken t.spot.rest .commented t := by
  have hnl : '\n' ∉ mark := by
    rcases hm with rfl | rfl <;> decide
  have htake : s.spot.rest.takeWhile (· ≠ '\n') = mark ++ rest.takeWhile (· ≠ '\n') := by
    rw [hr, List.takeWhile_append_of_pos]
    intro c hc
    exact decide_eq_true fun he => hnl (he ▸ hc)
  have hl : '\n' ∉ s.spot.rest.takeWhile (· ≠ '\n') := fun hc => by
    simpa using List.mem_takeWhile_imp hc
  have hne : s.spot.rest.takeWhile (· ≠ '\n') ≠ [] := by
    rw [htake]
    rcases hm with rfl | rfl <;> exact List.cons_ne_nil _ _
  have hends : ∀ c ∈ s.spot.lineEnd.rest.head?, c = '\n' := fun c hc => by
    obtain he | ⟨_, he⟩ := s.spot.lineEnd_cases <;> rw [he] at hc <;> cases hc
    rfl
  have hregion : behind m .code (s.spot.rest.takeWhile (· ≠ '\n')) = .line := by
    have hmark : behind m .code mark = .line := by
      rcases hm with rfl | rfl <;> rfl
    rw [htake, behind_append, hmark]
    exact Region.behind_inLine fun hc => hl (htake ▸ List.mem_append_right _ hc)
  rw [Spot.lineEnd, Spot.rest_pastWhile] at hends
  refine ⟨_, reads_of List.takeWhile_append_dropWhile.symm ht hne hl (.of_line hregion hends) ha,
    .lineComment hne hl ?_⟩
  rwa [ht, Spot.lineEnd, Spot.rest_pastWhile]

theorem last_comment {cs inside : List Char} (h : commentText? cs = some inside) :
    ('/' :: '*' :: inside).getLast? = some '/' := by
  obtain ⟨front, rfl⟩ := Spot.commentText?_closed h
  rw [show '/' :: '*' :: (front ++ ['*', '/']) = ('/' :: '*' :: front ++ ['*']) ++ ['/'] by simp,
    List.getLast?_concat]

theorem takes_pastComment (hr : s.spot.rest = '/' :: '*' :: rest) (ht : s.pastComment = .ok t) :
    ∃ inside, s.Reads m ('/' :: '*' :: inside) t ∧ commentText? inside = some inside := by
  unfold pastComment Spot.pastComment? at ht
  have hr2 : s.spot.next.next.rest = rest := (Spot.next_spec (Spot.next_spec hr).1).1
  simp only [hr2] at ht
  cases hi : commentText? rest with
  | none =>
    rw [hi] at ht
    cases ht
  | some inside =>
    rw [hi] at ht
    obtain rfl := Except.ok.inj ht
    obtain ⟨more, rfl⟩ := Spot.commentText?_prefix hi
    have hpast : (s.spot.next.next.past inside) = s.spot.past ('/' :: '*' :: inside) := rfl
    have hrest : (s.spot.past ('/' :: '*' :: inside)).rest = more := (Spot.past_spec hr).1
    refine ⟨inside, ⟨?_, hpast, List.cons_ne_nil _ _, ?_, .of_code (Region.behind_commentText hi), rfl⟩, ?_⟩
    · change _ = _ ++ (s.spot.past ('/' :: '*' :: inside)).rest
      rw [hrest]
      exact hr
    · rw [last_comment hi]
      decide
    · have hclosed : commentText? (inside ++ []) = some inside := Spot.commentText?_append hi
      rwa [List.append_nil] at hclosed

/-! ## Tokens -/

theorem reads_readName {g : Grammar} (hr : s.spot.rest = c :: rest) (hc : Grammar.isWordStart c = true) :
    ∃ taken, s.Reads m taken (s.readName g) := by
  have hword : Grammar.isWordChar c = true := by
    rw [Grammar.isWordChar, hc, Bool.true_or]
  refine ⟨_, reads_of List.takeWhile_append_dropWhile.symm rfl ?_ ?_ ?_ rfl⟩
  · rw [hr, List.takeWhile_cons_of_pos hword]
    exact List.cons_ne_nil _ _
  · exact fun hm => absurd (List.mem_takeWhile_imp hm) (by decide)
  · exact .of_code (Region.behind_code fun d hd => Region.ofCode_wordChar (List.mem_takeWhile_imp hd))

theorem reads_readNumber (hr : s.spot.rest = c :: rest) (hc : Text.isDigit c = true)
    (ht : s.readNumber = .ok t) : ∃ taken, s.Reads m taken t := by
  have hsplit := List.takeWhile_append_dropWhile (p := Text.isDigit) (l := s.spot.rest)
  have hdigits : ∀ d ∈ s.spot.rest.takeWhile Text.isDigit, Text.isDigit d = true :=
    fun d hd => List.mem_takeWhile_imp hd
  have hne : s.spot.rest.takeWhile Text.isDigit ≠ [] := by
    rw [hr, List.takeWhile_cons_of_pos hc]
    exact List.cons_ne_nil _ _
  rw [readNumber_eq] at ht
  generalize s.spot.rest.takeWhile Text.isDigit = whole at *
  generalize s.spot.rest.dropWhile Text.isDigit = ds at *
  split at ht
  · rename_i hp
    unfold pointed at hp
    split at hp
    · rename_i d tail
      obtain rfl := Except.ok.inj ht
      rw [List.drop_succ_cons, List.drop_zero]
      have hfraction : ∀ e ∈ (d :: tail).takeWhile Text.isDigit, Text.isDigit e = true :=
        fun e he => List.mem_takeWhile_imp he
      refine ⟨_, reads_of (r := (d :: tail).dropWhile Text.isDigit) ?_ rfl ?_ ?_ ?_ rfl⟩
      · rw [← hsplit, List.append_assoc, List.cons_append, List.takeWhile_append_dropWhile]
      · simp
      · intro hm
        obtain hm | hm := List.mem_append.1 hm
        · exact absurd (hdigits _ hm) (by decide)
        · obtain hm | hm := List.mem_cons.1 hm
          · exact absurd hm (by decide)
          · exact absurd (hfraction _ hm) (by decide)
      · refine .of_code (Region.behind_code fun e he => ?_)
        obtain he | he := List.mem_append.1 he
        · exact Region.ofCode_digit (hdigits e he)
        · obtain rfl | he := List.mem_cons.1 he
          · exact Region.ofCode_of (p := (· = '.')) (by decide) rfl
          · exact Region.ofCode_digit (hfraction e he)
    · cases hp
  · unfold readNumber.intToken at ht
    split at ht
    · obtain rfl := Except.ok.inj ht
      refine ⟨_, reads_of hsplit.symm rfl hne ?_ ?_ rfl⟩
      · exact fun hm => absurd (hdigits _ hm) (by decide)
      · exact .of_code (Region.behind_code fun d hd => Region.ofCode_digit (hdigits d hd))
    · cases ht

theorem reads_readString {quote : Char} (hr : s.spot.rest = quote :: rest) (hq : m.opensString quote = true)
    (ht : s.readString quote = .ok t) : ∃ taken, s.Reads m taken t := by
  have hrest : s.spot.next.rest = rest := (Spot.next_spec hr).1
  unfold readString at ht
  simp only [hrest] at ht
  split at ht
  · rename_i text after hb
    obtain rfl := Except.ok.inj ht
    obtain ⟨rfl, hl⟩ := Quotes.body_ok hb
    have hcode := Quotes.behind_body (m := m) hb
    have hstring := Region.ofCode_string hq
    have hn : quote ≠ '\n' := by
      rintro rfl
      cases hq
    refine ⟨quote :: text ++ [quote], reads_of (r := after) ?_ ?_ ?_ ?_ (.of_code ?_) rfl⟩
    · rw [hr]
      simp
    · exact Spot.past_quoted _ _ _
    · exact List.cons_ne_nil _ _
    · simp [hl, Ne.symm hn]
    · rw [List.cons_append, behind_cons, Region.after, hstring]
      exact hcode
  · cases ht
  · cases ht

theorem reads_readSymbol (hr : s.spot.rest = c :: rest) (ht : s.readSymbol c rest = .ok t)
    (hc : c ≠ '\n') (hh : c ≠ '#') (hq : m.opensString c = false)
    (hs : c = '/' → rest.head? ≠ some '/' ∧ rest.head? ≠ some '*') : ∃ taken, s.Reads m taken t := by
  unfold readSymbol at ht
  split at ht
  · rename_i symbol taken heq
    obtain rfl := Except.ok.inj ht
    obtain ⟨d, hd, heq⟩ := Option.bind_eq_some_iff.1 heq
    obtain ⟨more, rfl⟩ := List.head?_eq_some_iff.1 hd
    obtain ⟨_, hp, heq⟩ := Option.map_eq_some_iff.1 heq
    obtain ⟨rfl, rfl⟩ := Prod.mk.inj heq
    obtain rfl := (pair?_second hp).1
    refine ⟨_, reads_of (r := more) hr rfl (List.cons_ne_nil _ _) (by simp [Ne.symm hc]) (.of_code ?_) rfl⟩
    have hequals : Region.ofCode m '=' = .code := Region.ofCode_of (p := (· = '=')) (by decide) rfl
    rw [behind_cons, behind_cons]
    by_cases hslash : c = '/'
    · subst hslash
      exact hequals
    · rw [Region.after, Region.ofCode_eq hslash hh hq]
      exact hequals
  · split at ht
    · obtain rfl := Except.ok.inj ht
      refine ⟨_, reads_of (r := rest) hr rfl (List.cons_ne_nil _ _) (by simp [Ne.symm hc]) ?_ rfl⟩
      by_cases hslash : c = '/'
      · subst hslash
        intro e ds hp
        obtain ⟨more, rfl⟩ := hp
        exact Region.behind_slash (List.cons_ne_nil _ _) (hs rfl).1 (hs rfl).2
      · refine .of_code ?_
        rw [behind_cons, Region.after, Region.ofCode_eq hslash hh hq]
        rfl
    · cases ht

/-- What comes next on a line is read, unless the line ends. -/
theorem reads_readNext (hr : s.spot.rest = c :: rest) (hc : c ≠ '\n') (ht : s.readNext m c rest = .ok t) :
    ∃ taken, s.Reads m taken t := by
  unfold readNext at ht
  rw [if_neg hc] at ht
  split at ht
  · rename_i hs
    obtain ⟨rfl, hs⟩ := hs
    obtain ⟨more, rfl⟩ := List.head?_eq_some_iff.1 hs
    obtain rfl := Except.ok.inj ht
    obtain ⟨taken, h, -⟩ := takes_lineEnd (m := m) (t := s.moveTo s.spot.lineEnd)
      (show s.spot.rest = ['/', '/'] ++ more from hr) (.inl rfl) rfl rfl
    exact ⟨taken, h⟩
  rename_i hslashes
  split at ht
  · rename_i hs
    obtain ⟨rfl, hs⟩ := hs
    obtain ⟨more, rfl⟩ := List.head?_eq_some_iff.1 hs
    obtain ⟨inside, h, -⟩ := takes_pastComment (m := m) hr ht
    exact ⟨_, h⟩
  rename_i hstar
  split at ht
  · rename_i hs
    subst hs
    obtain rfl := Except.ok.inj ht
    obtain ⟨taken, h, -⟩ := takes_lineEnd (m := m) (t := s.pastHash)
      (show s.spot.rest = ['#'] ++ rest from hr) (.inr rfl) rfl rfl
    exact ⟨taken, h⟩
  rename_i hhash
  split at ht
  · rename_i hs
    subst hs
    exact reads_readString hr rfl ht
  rename_i hquote
  split at ht
  · rename_i hs
    obtain ⟨rfl, hs⟩ := hs
    exact reads_readString hr (by rw [ScanMode.opensString, hs]; rfl) ht
  rename_i happ
  split at ht
  · obtain rfl := Except.ok.inj ht
    exact reads_readName hr ‹_›
  split at ht
  · exact reads_readNumber hr ‹_› ht
  · refine reads_readSymbol hr ht hc hhash ?_ fun hs =>
      ⟨fun h => hslashes ⟨hs, h⟩, fun h => hstar ⟨hs, h⟩⟩
    simpa [ScanMode.opensString, hquote] using happ

/-! ## Moves -/

theorem Reads.took (h : s.Reads m taken t) {q : Phase} (ht : Takes taken t.spot.rest q t)
    (hq : q = .inLine → t.atLineStart = false) : Took m s taken q t :=
  ⟨h.rest, h.spot, ht, h.resumes, hq⟩

theorem took_newline {q : Phase} (hr : s.spot.rest = '\n' :: rest) (ht : t.spot = s.spot.next)
    (htakes : Takes ['\n'] t.spot.rest q t) (hq : q = .inLine → t.atLineStart = false) :
    Took m s ['\n'] q t := by
  refine ⟨?_, ht, htakes, .of_code rfl, hq⟩
  rw [ht, (Spot.next_spec hr).1, hr]
  rfl

theorem atLineStart_indentTo {w : Nat} (h : s.indentTo w = .ok t) : t.atLineStart = false := by
  rcases indentTo_ok h with rfl | rfl <;> rfl

/-- Reading on in a line takes the end of the line or something of it. -/
theorem took_readOn {x : Option Phase} (hs : s.atLineStart = false) (h : s.readOn m = .ok (t, x)) :
    (x = none ∧ t = s ∧ s.spot.rest = []) ∨ ∃ q taken, x = some q ∧ Took m s taken q t := by
  unfold readOn at h
  split at h
  · rename_i hr
    obtain ⟨rfl, rfl⟩ := Prod.mk.inj (Except.ok.inj h)
    exact .inl ⟨rfl, rfl, hr⟩
  rename_i c rest hr
  cases hu : s.readNext m c rest with
  | error stop =>
    rw [hu] at h
    cases h
  | ok u =>
    rw [hu] at h
    obtain ⟨rfl, rfl⟩ := Prod.mk.inj (Except.ok.inj h)
    refine .inr ⟨u.phase, ?_⟩
    by_cases hc : c = '\n'
    · subst hc
      rw [readNext, if_pos rfl] at hu
      split at hu <;> obtain rfl := Except.ok.inj hu
      · exact ⟨_, rfl, took_newline hr rfl .newline (fun hq => by cases hq)⟩
      · rename_i hopen
        have hphase : (s.moveTo s.spot.next).phase = .inLine := by
          rw [phase, moveTo, hs]
          rfl
        rw [hphase]
        exact ⟨_, rfl, took_newline hr rfl (.within hopen) fun _ => hs⟩
    · obtain ⟨taken, hreads⟩ := reads_readNext hr hc hu
      have hphase : u.phase = .inLine := by
        rw [phase, hreads.atLineStart, hs]
        rfl
      rw [hphase]
      exact ⟨taken, rfl, hreads.took (.token hreads.nonempty hreads.last) fun _ =>
        hreads.atLineStart.trans hs⟩

/-- What a move takes behind the blanks, unless the text ends there. -/
theorem took_act {p : Phase} {w : Nat} {x : Option Phase} (hs : p = .inLine → s.atLineStart = false)
    (h : s.act m p w = .ok (t, x)) :
    (x = none ∧ s.spot.rest = []) ∨ ∃ q taken, x = some q ∧ Took m s taken q t := by
  by_cases hp : p = .inLine
  · subst hp
    exact (took_readOn (hs rfl) h).imp_left fun h => ⟨h.1, h.2.2⟩
  rw [act, if_neg hp] at h
  rcases lead_cases s.spot.rest with ⟨hl, hr⟩ | ⟨ds, hl, hr⟩ | ⟨ds, hl, hr⟩ | ⟨ds, hl, hr⟩ |
    ⟨ds, hl, hr⟩ | hl
  all_goals simp only [hl] at h
  · exact .inl ⟨(Prod.mk.inj (Except.ok.inj h)).2.symm, hr⟩
  · obtain ⟨rfl, rfl⟩ := Prod.mk.inj (Except.ok.inj h)
    exact .inr ⟨_, _, rfl, took_newline hr rfl .newline (fun hq => by cases hq)⟩
  · obtain ⟨rfl, rfl⟩ := Prod.mk.inj (Except.ok.inj h)
    obtain ⟨taken, hreads, htakes⟩ := takes_lineEnd (m := m) (t := s.pastHash)
      (show s.spot.rest = ['#'] ++ ds from hr) (.inr rfl) rfl rfl
    exact .inr ⟨_, _, rfl, hreads.took htakes (fun hq => by cases hq)⟩
  · obtain ⟨rfl, rfl⟩ := Prod.mk.inj (Except.ok.inj h)
    obtain ⟨taken, hreads, htakes⟩ := takes_lineEnd (m := m) (t := s.moveTo s.spot.lineEnd)
      (show s.spot.rest = ['/', '/'] ++ ds from hr) (.inl rfl) rfl rfl
    exact .inr ⟨_, _, rfl, hreads.took htakes (fun hq => by cases hq)⟩
  · cases hu : s.pastComment with
    | error stop =>
      rw [hu] at h
      cases h
    | ok u =>
      rw [hu] at h
      obtain ⟨rfl, rfl⟩ := Prod.mk.inj (Except.ok.inj h)
      obtain ⟨inside, hreads, hi⟩ := takes_pastComment (m := m) hr hu
      exact .inr ⟨_, _, rfl, hreads.took (.blockComment hi) (fun hq => by cases hq)⟩
  · cases hi : s.indentTo w with
    | error stop =>
      rw [hi] at h
      cases h
    | ok u =>
      rw [hi] at h
      have hspot : u.spot = s.spot := (adds_indentTo hi).2
      obtain ⟨-, -, hr⟩ | ⟨q, taken, hx, htook⟩ := took_readOn (atLineStart_indentTo hi) h
      · rw [hspot] at hr
        rw [hr] at hl
        cases hl
      · exact .inr ⟨q, taken, hx, ⟨hspot ▸ htook.rest, hspot ▸ htook.spot, htook.takes, htook.resumes,
          htook.inLine⟩⟩

end State

end StoryLang.Scan
