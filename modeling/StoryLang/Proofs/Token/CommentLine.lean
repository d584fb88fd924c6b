/-
Comments are invisible.

If a block comment on one line is replaced by as many spaces, the same tokens
are read at the same places, or the same fault is met (`scan_blockComment`).
Code behind a comment has the width of the column that it stands in. Where the
line starts with blanks alone they are measured, and a tab goes further then
than its one column. So the two may differ for the first code of a line if
there are tabs around the comment in front of it, and they do
(`scan_blockComment_tab`).

A line with nothing but a comment on it can be put between two lines of a text.
What is read is the same, but for the places behind it, which move down by as
many lines (`scan_commentLine`). Up to the line the scanner does what it did.
It passes the line at the start of a line as well as between brackets, and
behind it the same text comes, further down.
-/
import StoryLang.Proofs.Token.Comment

/-! ## Block comments -/

namespace StoryLang

theorem Region.behind_dropMark {m : ScanMode} (cs : List Char) :
    Region.behind m .code (Text.dropMark cs) = Region.behind m .code cs := by
  cases cs with
  | nil => rfl
  | cons c cs =>
    rw [Text.dropMark]
    split
    · rename_i hc
      subst hc
      rfl
    · rfl

theorem Position.carried_eq : Carried Eq := fun _ _ c h => congrArg (Position.after · c) h

namespace Scan

variable {m : ScanMode} {front behind inside blanks gap rest : List Char} {p q : Phase} {w : Nat}
  {s t : State}

/-- The spaces in the place of a comment. -/
def covered (inside : List Char) : List Char := List.replicate (inside.length + 2) ' '

/-- Behind the text, but for some blanks, a line starts whose width is still to be measured. -/
def LineStart (m : ScanMode) (front blanks : List Char) : Prop :=
  ∃ t, Goes m .fresh (.start front) .fresh t ∧ t.spot.rest = blanks ∧ ∀ c ∈ blanks, Spot.isGap c = true

/-- If code comes behind the comment and starts its line, the blanks with the spaces in the place of
the comment are as wide as they are long. -/
def WidthKept (m : ScanMode) (front inside behind : List Char) : Prop :=
  ∀ blanks, LineStart m front blanks → lead (behind.dropWhile Spot.isGap) = .code →
    State.widthFrom 0 (blanks ++ covered inside ++ behind.takeWhile Spot.isGap) =
      (blanks ++ covered inside ++ behind.takeWhile Spot.isGap).length

/-! ## The place behind a comment -/

theorem isGap_covered (inside : List Char) : ∀ c ∈ covered inside, Spot.isGap c = true := fun c hc => by
  rw [List.eq_of_mem_replicate hc]
  rfl

theorem line_gap (h : ∀ c ∈ gap, Spot.isGap c = true) : '\n' ∉ gap := fun hm =>
  absurd (h _ hm) (by decide)

theorem takeWhile_covered (hblanks : ∀ c ∈ blanks, Spot.isGap c = true) :
    (blanks ++ covered inside ++ behind).takeWhile Spot.isGap =
      blanks ++ covered inside ++ behind.takeWhile Spot.isGap :=
  List.takeWhile_append_of_pos (List.forall_mem_append.2 ⟨hblanks, isGap_covered inside⟩)

/-- Behind a comment and behind spaces the same text comes in the same place. -/
theorem relocated_covered {z z' : Spot} (hclosed : Spot.commentText? inside = some inside)
    (hline : '\n' ∉ inside) (hblanks : ∀ c ∈ blanks, Spot.isGap c = true) (hp : z'.place = z.place)
    (hr : z.rest = (blanks ++ '/' :: '*' :: inside) ++ behind)
    (hr' : z'.rest = (blanks ++ covered inside) ++ behind) :
    (z.past (blanks ++ '/' :: '*' :: inside)).pastGap.Relocated Eq z'.pastGap := by
  have hgap : ∀ c ∈ behind.takeWhile Spot.isGap, Spot.isGap c = true := fun c hc => List.mem_takeWhile_imp hc
  have hcut := (List.takeWhile_append_dropWhile (p := Spot.isGap) (l := behind)).symm
  rw [Spot.pastGap, Spot.pastGap, Spot.pastWhile, Spot.pastWhile, (Spot.past_spec hr).1, hr',
    takeWhile_covered hblanks, ← Spot.past_append]
  rw [hcut, ← List.append_assoc] at hr hr'
  generalize behind.takeWhile Spot.isGap = gap at *
  refine ⟨by rw [(Spot.past_spec hr).1, (Spot.past_spec hr').1], ?_, ?_⟩
  · have hlength : (blanks ++ covered inside ++ gap).length =
        (blanks ++ '/' :: '*' :: inside ++ gap).length := by
      simp only [List.length_append, covered, List.length_replicate, List.length_cons]
    rw [(Spot.past_spec hr).2, (Spot.past_spec hr').2, hp, Position.behind_line, Position.behind_line,
      hlength]
    · simp [line_gap hblanks, line_gap hgap, line_gap (isGap_covered inside)]
    · simp [line_gap hblanks, line_gap hgap, hline]
  · have hword (l : List Char) (h : l.getLast?.any Grammar.isWordChar = false) :
        (l ++ gap).getLast?.any Grammar.isWordChar = false := by
      rw [List.getLast?_append]
      cases hg : gap.getLast? with
      | none => exact h
      | some c => exact Spot.isWordChar_gap (hgap c (List.mem_of_getLast? hg))
    rw [Spot.before_past hr (by simp), Spot.before_past hr' (by simp [covered]), hword, hword]
    · rw [List.getLast?_append_of_ne_nil _ (List.cons_ne_nil _ _), State.last_comment hclosed]
      rfl
    · rw [List.getLast?_append_of_ne_nil _ (by simp [covered]), covered, List.getLast?_replicate]
      rfl

/-! ## The move behind it -/

theorem Phase.behindComment_inLine : p.behindComment = .inLine ↔ p = .inLine := by
  cases p <;> simp [behindComment]

/-- What is done behind blanks depends on the phase only in so far as it measures a line or not. -/
theorem State.act_phase (h : p = .inLine ↔ q = .inLine) (s : State) : s.act m p w = s.act m q w := by
  unfold State.act
  simp only [h]

/-! ## Widths -/

theorem Goes.suffix (h : Goes m p s q t) (hs : p = .inLine → s.atLineStart = false) :
    t.spot.rest <:+ s.spot.rest := by
  induction h with
  | refl => exact List.suffix_refl _
  | @step p q _ s t _ move _ ih =>
    obtain ⟨hq, -⟩ | ⟨q', taken, hq, htook⟩ := State.took_act (s := s.moveTo s.spot.pastGap) hs move
    · cases hq
    obtain rfl := Option.some.inj hq
    exact (ih htook.inLine).trans htook.suffix

/-- Spaces keep the width of the line. -/
theorem WidthKept.of_spaces (hfront : (front.rtakeWhile Spot.isGap).all (· = ' ') = true)
    (hbehind : (behind.takeWhile Spot.isGap).all (· = ' ') = true) : WidthKept m front inside behind := by
  simp only [List.all_eq_true, decide_eq_true_eq] at hfront hbehind
  rintro blanks ⟨t, hgoes, rfl, hblanks⟩ -
  have hspaces : ∀ c ∈ t.spot.rest, c = ' ' := by
    obtain ⟨more, hm⟩ := (hgoes.suffix fun h => nomatch h).trans (Text.dropMark_suffix front)
    refine fun c hc => hfront c ?_
    rw [← hm, List.rtakeWhile, List.reverse_append,
      List.takeWhile_append_of_pos fun d hd => hblanks d (List.mem_reverse.1 hd)]
    simp [hc]
  rw [State.widthFrom_spaces, Nat.zero_add]
  exact List.forall_mem_append.2 ⟨List.forall_mem_append.2
    ⟨hspaces, fun c hc => List.eq_of_mem_replicate hc⟩, hbehind⟩

/-! ## The scanner in front of a comment -/

/-- A line starts at its first column. -/
theorem column_fresh {taken : List Char} (_ : p = .fresh → s.spot.place.column = 1)
    (_ : s.move m p = .ok (t, some q)) (h : Took m (s.moveTo s.spot.pastGap) taken q t) :
    q = .fresh → t.spot.place.column = 1 := by
  rintro rfl
  obtain ⟨hrest, hspot, htakes, -⟩ := h
  cases htakes with
  | newline =>
    rw [hspot]
    change (s.spot.pastGap.next).place.column = 1
    rw [Spot.next, show s.spot.pastGap.rest = '\n' :: t.spot.rest from hrest]
    rfl

/-- The scanner in front of a comment, behind some blanks. -/
structure Before (q : Phase) (t : State) (inside behind : List Char) : Prop where
  blanks : ∀ c ∈ t.spot.rest, Spot.isGap c = true
  inLine : q = .inLine → t.atLineStart = false
  column : q = .fresh → t.spot.place.column = 1
  width : q = .fresh → lead (behind.dropWhile Spot.isGap) = .code →
    State.widthFrom 0 (t.spot.rest ++ covered inside ++ behind.takeWhile Spot.isGap) =
      (t.spot.rest ++ covered inside ++ behind.takeWhile Spot.isGap).length

/-- Once the comment is passed, the scanner makes the move that it makes behind spaces. -/
theorem Before.moves (h : Before q t inside behind) (hclosed : Spot.commentText? inside = some inside)
    (hline : '\n' ∉ inside) :
    ∃ u, (t.extend ('/' :: '*' :: inside ++ behind)).move m q = .ok (u, some q.behindComment) ∧
      State.MoveRelocated Eq Eq id t t (u.move m q.behindComment)
        ((t.extend (covered inside ++ behind)).move m q) := by
  obtain ⟨hblanks, hs, hcolumn, hwidth⟩ := h
  have hr : (t.extend ('/' :: '*' :: inside ++ behind)).spot.rest =
      (t.spot.rest ++ '/' :: '*' :: inside) ++ behind := (List.append_assoc _ _ _).symm
  have hr' : (t.extend (covered inside ++ behind)).spot.rest = (t.spot.rest ++ covered inside) ++ behind :=
    (List.append_assoc _ _ _).symm
  have hspots := relocated_covered hclosed hline hblanks
    (show (t.extend (covered inside ++ behind)).spot.place =
      (t.extend ('/' :: '*' :: inside ++ behind)).spot.place from rfl) hr hr'
  refine ⟨_, State.move_blockComment hblanks (hr.trans (List.append_assoc _ _ _)) hclosed hs, ?_⟩
  have hrelated : State.Relocated Eq Eq id t t
      (((t.extend ('/' :: '*' :: inside ++ behind)).moveTo ((t.extend ('/' :: '*' :: inside ++ behind)).spot.past
        (t.spot.rest ++ '/' :: '*' :: inside)).pastGap))
      ((t.extend (covered inside ++ behind)).moveTo (t.extend (covered inside ++ behind)).spot.pastGap) :=
    ⟨hspots, (List.map_id _).symm, rfl, rfl, .old, .old⟩
  rw [State.move, State.move, State.act_phase Phase.behindComment_inLine]
  refine hrelated.act strictMono_id rfl Position.carried_eq hspots.place fun hq hl => ?_
  have hcode : lead (behind.dropWhile Spot.isGap) = .code := by
    change lead (Spot.pastGap _).rest = _ at hl
    rwa [Spot.pastGap, Spot.rest_pastWhile, (Spot.past_spec hr).1] at hl
  cases q with
  | inLine => exact absurd rfl hq
  | commented => exact congrArg (·.column - 1) hspots.place.symm
  | fresh =>
    -- the line starts at its first column, so its blanks are as wide as they are long
    have htake : (t.extend (covered inside ++ behind)).spot.rest.takeWhile Spot.isGap =
        t.spot.rest ++ covered inside ++ behind.takeWhile Spot.isGap := by
      rw [hr', takeWhile_covered hblanks]
    refine Eq.trans ?_ (congrArg (·.column - 1) hspots.place.symm)
    change State.widthFrom 0 ((t.extend (covered inside ++ behind)).spot.rest.takeWhile Spot.isGap) = _
    rw [Spot.place_pastGap, htake, hwidth rfl hcode]
    change _ = t.spot.place.column + _ - 1
    rw [hcolumn rfl, Nat.add_sub_cancel_left]

end Scan

theorem Scanned.Relocated.eq {o : Scan.State} {r r' : Scanned} (h : Relocated Eq o o r r') : r = r' := by
  obtain ⟨tokens, comments⟩ := r
  obtain ⟨tokens', comments'⟩ := r'
  obtain ⟨new, new', rfl, rfl, hnew⟩ := h.hashComments
  rw [List.forall₂_eq_eq_eq] at hnew
  subst hnew
  congr 1
  obtain ⟨hcause, hplace⟩ | ⟨new, new', rfl, rfl, hnew⟩ := h.tokens
  · rename_i fault fault'
    obtain ⟨cause, place⟩ := fault
    obtain rfl := hcause
    obtain rfl := hplace
    rfl
  · have heq : List.Forall₂ Eq new new' := hnew.imp fun u u' ⟨hk, hl, hp⟩ => by
      obtain ⟨kind, literal, place⟩ := u
      obtain rfl := hk
      obtain rfl := hl
      obtain rfl := hp
      rfl
    rw [List.forall₂_eq_eq_eq] at heq
    rw [heq]

open Scan in
/-- A block comment on one line that starts in code counts as the blanks it covers. -/
theorem scan_blockComment {m : ScanMode} {front inside behind : List Char}
    (hcode : Region.behind m .code front = .code) (hclosed : Spot.commentText? inside = some inside)
    (hline : '\n' ∉ inside) (hwidth : WidthKept m front inside behind) :
    scan m (front ++ ('/' :: '*' :: inside ++ behind)) = scan m (front ++ (covered inside ++ behind)) := by
  have hmark : ('/' :: '*' :: inside ++ behind).head? ≠ some Text.byteOrderMark := by
    rintro ⟨⟩
  have hmark' : (covered inside ++ behind).head? ≠ some Text.byteOrderMark := by
    rintro ⟨⟩
  have hseam : Seam m (Text.dropMark front) ('/' :: '*' :: inside ++ behind) :=
    ⟨(Region.behind_dropMark front).trans hcode, .inr fun c hc => by cases hc; decide⟩
  have hseam' : Seam m (Text.dropMark front) (covered inside ++ behind) :=
    ⟨(Region.behind_dropMark front).trans hcode, .inr fun c hc => by cases hc; decide⟩
  have hx := comes_scan m (front ++ ('/' :: '*' :: inside ++ behind))
  have hx' := comes_scan m (front ++ (covered inside ++ behind))
  rw [← State.start_extend (.inr hmark)] at hx
  rw [← State.start_extend (.inr hmark')] at hx'
  obtain ⟨e, he⟩ | ⟨q, t, hcolumn, hend, hs, hgoes⟩ := reach (m := m) (p := .fresh) (s := .start front)
    (I := fun q t => q = .fresh → t.spot.place.column = 1) column_fresh (fun _ => rfl)
    (by rintro ⟨⟩) hseam.code
  · rw [hx.unique (he _ hseam), hx'.unique (he _ hseam')]
  have hblanks : ∀ c ∈ t.spot.rest, Spot.isGap c = true := by
    rw [Spot.pastGap, Spot.rest_pastWhile] at hend
    simpa using hend
  have hbefore : Before q t inside behind := by
    refine ⟨hblanks, hs, hcolumn, ?_⟩
    rintro rfl
    refine hwidth _ ⟨t, ?_, rfl, hblanks⟩
    have hnil := hgoes [] ⟨hseam.code, .inr Text.soft_nil⟩
    rwa [State.extend_nil, State.extend_nil] at hnil
  obtain ⟨u, hu, hrelated⟩ := hbefore.moves (m := m) hclosed hline
  have hrun := ((hgoes _ hseam).trans (Goes.of_eq hu)).on hx
  exact (State.Relocated.comes Position.carried_eq (fun _ _ h => h ▸ rfl) hrelated rfl hrun
    ((hgoes _ hseam').on hx')).eq

/-- A comment in front of the code of an indented line. -/
theorem scan_blockComment_indented :
    let front := "if a\n  ".toList
    Region.behind ⟨.builtIn, false⟩ .code front = .code ∧
      Spot.commentText? ['c', '*', '/'] = some ['c', '*', '/'] ∧ '\n' ∉ ['c', '*', '/'] ∧
      Scan.WidthKept ⟨.builtIn, false⟩ front ['c', '*', '/'] [' ', 'x', '\n'] ∧
      scan ⟨.builtIn, false⟩ (front ++ ('/' :: '*' :: ['c', '*', '/'] ++ [' ', 'x', '\n'])) =
        scan ⟨.builtIn, false⟩ (front ++ (Scan.covered ['c', '*', '/'] ++ [' ', 'x', '\n'])) := by
  intro front
  have hwidth : Scan.WidthKept ⟨.builtIn, false⟩ front ['c', '*', '/'] [' ', 'x', '\n'] :=
    .of_spaces (by decide +kernel) (by decide +kernel)
  exact ⟨by decide +kernel, by decide +kernel, by decide, hwidth,
    scan_blockComment (by decide +kernel) (by decide +kernel) (by decide) hwidth⟩

/-- Behind a tab the comment counts for less than the blanks it covers: with it the next line,
which is five columns in, goes on in the block, and with blanks it does not. -/
theorem scan_blockComment_tab :
    let front := "if a\n\t".toList
    let behind := "x = 1\n     y = 2\n".toList
    Region.behind ⟨.builtIn, false⟩ .code front = .code ∧
      Spot.commentText? ['*', '/'] = some ['*', '/'] ∧ '\n' ∉ ['*', '/'] ∧
      scan ⟨.builtIn, false⟩ (front ++ ('/' :: '*' :: ['*', '/'] ++ behind)) ≠
        scan ⟨.builtIn, false⟩ (front ++ (Scan.covered ['*', '/'] ++ behind)) := by
  intro front behind
  refine ⟨by decide +kernel, by decide +kernel, by decide, fun h => ?_⟩
  have hread : (scan ⟨.builtIn, false⟩ (front ++ ('/' :: '*' :: ['*', '/'] ++ behind))).tokens.toOption.isSome =
      true := by decide +kernel
  rw [h] at hread
  exact absurd hread (by decide +kernel)

end StoryLang

/-! ## Lines without code -/

namespace StoryLang

namespace Scan

/-! ## Up to the line -/

/-- What is known of the scanner in a text that ends with its line `n`: it read nothing in a later
line, and at the end a line starts, or goes on between brackets. -/
structure Upto (m : ScanMode) (n : Nat) (o : State) (q : Phase) (s : State) : Prop where
  line : s.spot.place.line + s.spot.rest.count '\n' = n
  earlier : State.Relocated Eq (fun p p' => p' = p ∧ p.line < n) id o o s s
  ended : s.spot.rest.getLast? = some '\n' ∨
    s.spot.rest = [] ∧ (q = .fresh ∨ q = .inLine ∧ s.brackets ≠ 0) ∧ s.spot.place.column = 1 ∧
      s.spot.before.any Grammar.isWordChar = false

namespace Upto

variable {m : ScanMode} {n : Nat} {o s t : State} {p q : Phase} {taken : List Char}

theorem line_reaches {z z' : Spot} (h : z.Reaches z') :
    z'.place.line + z'.rest.count '\n' = z.place.line + z.rest.count '\n' := by
  obtain ⟨cs, hr, hp⟩ := h
  rw [hr, hp, Position.line_behind_count, List.count_append, Nat.add_assoc]

theorem step (h : Upto m n o p s) (hx : s.move m p = .ok (t, some q))
    (htook : Took m (s.moveTo s.spot.pastGap) taken q t) : Upto m n o q t := by
  have hreach : (s.moveTo s.spot.pastGap).spot.Reaches t.spot :=
    ⟨taken, htook.rest, by rw [htook.spot]; exact (Spot.past_spec htook.rest).2⟩
  have hgapLine := line_reaches s.spot.reaches_pastGap
  have hlast : s.spot.pastGap.rest.getLast? = some '\n' := by
    obtain hl | ⟨hr, -⟩ := h.ended
    · exact last_pastGap hl
    · have hlt := Nat.lt_of_lt_of_le htook.rest_lt s.spot.rest_pastGap_le
      rw [hr] at hlt
      cases hlt
  have hbefore : s.spot.pastGap.place.line < n := by
    have hcount : 0 < s.spot.pastGap.rest.count '\n' :=
      List.count_pos_iff.2 (List.mem_of_getLast? hlast)
    have := h.line
    omega
  refine ⟨?_, ?_, ?_⟩
  · rw [line_reaches hreach]
    exact hgapLine.trans h.line
  · obtain ⟨a, ha, ht⟩ := (h.earlier.move strictMono_id rfl (fun p p' c he => he ▸ rfl)
      ⟨rfl, hbefore⟩ fun _ _ => rfl).exists_ok hx
    obtain rfl := Except.ok.inj (hx.symm.trans ha)
    exact ht.1
  · obtain hl | ⟨hr, rfl, hq⟩ := htook.last hlast
    · exact .inl hl
    refine .inr ?_
    have hline : s.spot.pastGap.rest = '\n' :: t.spot.rest := htook.rest
    have hspot : t.spot = ⟨t.spot.rest, s.spot.pastGap.place.after '\n', some '\n'⟩ := by
      conv_lhs => rw [htook.spot]
      change s.spot.pastGap.next = _
      rw [Spot.next, hline]
    refine ⟨hr, hq, ?_, ?_⟩ <;> rw [hspot] <;> rfl

end Upto

end Scan

/-! ## Texts -/

namespace Text

variable {cs : List Char}

/-- A text of whole lines is one behind its mark, with as many lines. -/
theorem lines_dropMark (h : cs = [] ∨ cs.getLast? = some '\n') :
    (dropMark cs = [] ∨ (dropMark cs).getLast? = some '\n') ∧
      (dropMark cs).count '\n' = cs.count '\n' := by
  cases cs with
  | nil => exact ⟨.inl rfl, rfl⟩
  | cons c cs =>
    obtain h | h := h
    · cases h
    by_cases hc : c = byteOrderMark
    · subst hc
      cases cs with
      | nil => cases h
      | cons d cs =>
        rw [List.getLast?_cons_cons] at h
        rw [dropMark, if_pos rfl]
        exact ⟨.inr h, (List.count_cons_of_ne (by decide)).symm⟩
    · rw [dropMark, if_neg hc]
      exact ⟨.inr h, rfl⟩

end Text

namespace Scan

variable {m : ScanMode} {front : List Char}

/-- Whole lines that can be read are read whatever is behind them, up to the start of a line or to
a place between brackets. -/
theorem exists_upto (hfront : front = [] ∨ front.getLast? = some '\n')
    (hread : ∃ ts, (scan m front).tokens = .ok ts) :
    ∃ q t, Upto m (front.count '\n' + 1) (.start front) q t ∧ t.spot.rest = [] ∧
      (q = .inLine → t.atLineStart = false) ∧
      ∀ more, Goes m .fresh ((State.start front).extend more) q (t.extend more) := by
  obtain ⟨hlines, hcount⟩ := Text.lines_dropMark hfront
  obtain ⟨ts, hts⟩ := hread
  have hfresh : Phase.fresh = .inLine → (State.start front).atLineStart = false := fun h => nomatch h
  have hcode : Region.behind m .code (State.start front).spot.rest = .code := by
    refine Decidable.byContradiction fun hcode => ?_
    obtain hr | hl := hlines
    · exact hcode (congrArg (Region.behind m .code) hr)
    · obtain ⟨e, he⟩ := stops_inComment (comes_scan m front) rfl hfresh hl hcode
      rw [he] at hts
      cases hts
  have hseam (more : List Char) : Seam m (State.start front).spot.rest more := by
    refine ⟨hcode, .inl fun c hc => ?_⟩
    obtain hr | hl := hlines
    · rw [show (State.start front).spot.rest = Text.dropMark front from rfl, hr] at hc
      cases hc
    · exact Option.some.inj (hc.symm.trans hl)
  have hupto : Upto m (front.count '\n' + 1) (.start front) .fresh (.start front) := by
    refine ⟨?_, ⟨⟨rfl, rfl, rfl⟩, rfl, rfl, rfl, .old, .old⟩, ?_⟩
    · change 1 + (Text.dropMark front).count '\n' = _
      rw [hcount, Nat.add_comm]
    · exact hlines.symm.imp_right fun hr => ⟨hr, .inl rfl, rfl, rfl⟩
  obtain ⟨e, he⟩ | ⟨q, t, ht, hend, hline, hgoes⟩ :=
    reach (I := Upto m (front.count '\n' + 1) (.start front)) Upto.step hupto hfresh hcode
  · have hstop := he [] (hseam [])
    rw [State.extend_nil] at hstop
    rw [(comes_scan m front).unique hstop] at hts
    cases hts
  · refine ⟨q, t, ht, ?_, hline, fun more => hgoes more (hseam more)⟩
    obtain hl | ⟨hr, -⟩ := ht.ended
    · have hl := last_pastGap hl
      rw [hend] at hl
      cases hl
    · exact hr

end Scan

/-! ## Places that move down -/

/-- The place, so many lines further down if it is not in front of a line. -/
def Position.lowered (line n : Nat) (p : Position) : Position :=
  if p.line < line then p else ⟨p.line + n, p.column⟩

def Token.lowered (line n : Nat) (t : Token) : Token := { t with position := t.position.lowered line n }

/-- What is read when lines are put in front of a line, and comments in them are reported. -/
def Scanned.lowered (line n : Nat) (reported : List Position) (r : Scanned) : Scanned where
  tokens := match r.tokens with
    | .ok ts => .ok (ts.map (Token.lowered line n))
    | .error fault => .error { fault with position := fault.position.lowered line n }
  hashComments := r.hashComments.filter (·.line < line) ++ reported ++
    (r.hashComments.filter (line ≤ ·.line)).map (Position.lowered line n)

/-- The place is not in front of a line, and moves so many lines down. -/
def Position.Lowers (line n : Nat) (p p' : Position) : Prop :=
  line ≤ p.line ∧ p' = ⟨p.line + n, p.column⟩

namespace Position

variable {line n : Nat} {p p' : Position}

theorem Lowers.lowered (h : p.Lowers line n p') : p' = p.lowered line n := by
  rw [Position.lowered, if_neg (Nat.not_lt.2 h.1), h.2]

theorem lowered_earlier (h : p.line < line) : p.lowered line n = p := if_pos h

theorem carried_lowers (line n : Nat) : Carried (Lowers line n) := by
  rintro p p' c ⟨hl, rfl⟩
  unfold after
  split
  · exact ⟨Nat.le_succ_of_le hl, by rw [Nat.add_right_comm]⟩
  · exact ⟨hl, rfl⟩

end Position

theorem eq_map_of_forall₂ {α : Type} {R : α → α → Prop} {f : α → α} (hf : ∀ a b, R a b → b = f a)
    {l l' : List α} (h : List.Forall₂ R l l') : l' = l.map f := by
  have hmap : List.Forall₂ Eq (l.map f) l' :=
    List.forall₂_map_left_iff.2 (h.imp fun a b hab => (hf a b hab).symm)
  rw [List.forall₂_eq_eq_eq] at hmap
  exact hmap.symm

theorem forall_of_forall₂ {α : Type} {R : α → α → Prop} {p : α → Prop} (hp : ∀ a b, R a b → p a)
    {l l' : List α} (h : List.Forall₂ R l l') : ∀ a ∈ l, p a := by
  induction h with
  | nil => exact fun a ha => nomatch ha
  | cons hab _ ih => exact List.forall_mem_cons.2 ⟨hp _ _ hab, ih⟩

theorem map_eq_self {α : Type} {f : α → α} {l : List α} (h : ∀ a ∈ l, f a = a) : l.map f = l :=
  (List.map_congr_left h).trans (List.map_id l)

namespace Scanned

variable {line n : Nat} {o o' : Scan.State} {r r' : Scanned} {reported : List Position}

/-- What was read in front of a line stays, and what comes behind it moves down. -/
theorem Relocated.lowered (h : Relocated (Position.Lowers line n) o o' r r') (ht : o'.tokens = o.tokens)
    (hh : o'.hashComments = reported ++ o.hashComments) (hone : reported.reverse = reported)
    (htokens : ∀ t ∈ o.tokens, t.position.line < line)
    (hcomments : ∀ p ∈ o.hashComments, p.line < line) : r' = r.lowered line n reported := by
  obtain ⟨tokens, comments⟩ := r
  obtain ⟨tokens', comments'⟩ := r'
  have hcomment : comments' = comments.filter (·.line < line) ++ reported ++
      (comments.filter (line ≤ ·.line)).map (Position.lowered line n) := by
    obtain ⟨new, new', rfl, rfl, hnew⟩ := h.hashComments
    have hlate : ∀ p ∈ new, line ≤ p.line := forall_of_forall₂ (fun _ _ hp => hp.1) hnew
    have hearly : (o.hashComments.reverse ++ new).filter (·.line < line) = o.hashComments.reverse := by
      rw [List.filter_append, List.filter_eq_self.2, List.filter_eq_nil_iff.2, List.append_nil]
      · exact fun p hp => by simpa using hlate p hp
      · exact fun p hp => by simpa using hcomments p (List.mem_reverse.1 hp)
    have hrest : (o.hashComments.reverse ++ new).filter (line ≤ ·.line) = new := by
      rw [List.filter_append, List.filter_eq_nil_iff.2, List.filter_eq_self.2, List.nil_append]
      · exact fun p hp => by simpa using hlate p hp
      · exact fun p hp => by simpa using hcomments p (List.mem_reverse.1 hp)
    rw [hearly, hrest, hh, List.reverse_append, hone, List.append_assoc,
      eq_map_of_forall₂ (fun _ _ hp => hp.lowered) hnew, List.append_assoc]
  have htoken : tokens' = (Scanned.lowered line n reported ⟨tokens, comments⟩).tokens := by
    obtain ⟨hcause, hplace⟩ | ⟨new, new', rfl, rfl, hnew⟩ := h.tokens
    · rename_i fault fault'
      obtain ⟨cause, place⟩ := fault'
      obtain rfl := hcause
      obtain rfl := hplace.lowered
      rfl
    · have hsame : o.tokens.reverse.map (Token.lowered line n) = o.tokens.reverse :=
        map_eq_self fun t hr => by
          rw [Token.lowered, Position.lowered_earlier (htokens t (List.mem_reverse.1 hr))]
      have hmoved : new' = new.map (Token.lowered line n) := by
        refine eq_map_of_forall₂ (fun t t' hr => ?_) hnew
        obtain ⟨kind, literal, place⟩ := t'
        obtain ⟨rfl, rfl, hplace⟩ := hr
        obtain rfl := hplace.lowered
        rfl
      rw [ht, hmoved, Scanned.lowered]
      dsimp only
      rw [List.map_append, hsame]
  rw [hcomment, htoken]
  rfl

end Scanned

namespace Scan

variable {m : ScanMode} {n : Nat} {o t : State} {q : Phase} {more : List Char}

theorem Upto.tokens (h : Upto m n (.start more) q t) : ∀ u ∈ t.tokens, u.position.line < n := by
  obtain ⟨new, new', hs, hs', hnew⟩ := h.earlier.tokens.exists
  obtain rfl := List.append_cancel_right (hs.symm.trans hs')
  rw [show t.tokens = new from hs.trans (List.append_nil new)]
  exact forall_of_forall₂ (fun _ _ hu => hu.position.2) hnew

theorem Upto.hashComments (h : Upto m n (.start more) q t) : ∀ p ∈ t.hashComments, p.line < n := by
  obtain ⟨new, new', hs, hs', hnew⟩ := h.earlier.hashComments.exists
  obtain rfl := List.append_cancel_right (hs.symm.trans hs')
  rw [show t.hashComments = new from hs.trans (List.append_nil new)]
  exact forall_of_forall₂ (fun _ _ hp => hp.2) hnew

theorem Upto.place (h : Upto m n o q t) (hr : t.spot.rest = []) :
    t.spot.place = ⟨n, 1⟩ ∧ (q = .fresh ∨ q = .inLine ∧ t.brackets ≠ 0) ∧
      t.spot.before.any Grammar.isWordChar = false := by
  have hline := h.line
  rw [hr, List.count_nil, Nat.add_zero] at hline
  obtain hl | ⟨-, hq, hcolumn, hbefore⟩ := h.ended
  · rw [hr] at hl
    cases hl
  · exact ⟨by rw [← hline, ← hcolumn], hq, hbefore⟩

end Scan

/-- A line without code is invisible in front of any text, behind whole lines that can be read. -/
theorem scan_commentLine {m : ScanMode} {front behind blanks c : List Char}
    (hfront : front = [] ∨ front.getLast? = some '\n') (hread : ∃ ts, (scan m front).tokens = .ok ts)
    (hmark : behind.head? ≠ some Text.byteOrderMark) (hblanks : ∀ d ∈ blanks, d = ' ' ∨ d = '\t')
    (hc : CommentLine c) :
    scan m (front ++ (blanks ++ (c ++ '\n' :: behind))) =
      (scan m (front ++ behind)).lowered (front.count '\n' + 1) (c.count '\n' + 1)
        (CommentLine.reported c ⟨front.count '\n' + 1, blanks.length + 1⟩) := by
  have hgaps : ∀ d ∈ blanks, Spot.isGap d = true := fun d hd => by
    rcases hblanks d hd with rfl | rfl <;> rfl
  have hmark' : (blanks ++ (c ++ '\n' :: behind)).head? ≠ some Text.byteOrderMark := by
    cases blanks with
    | nil => cases hc <;> exact fun h => nomatch h
    | cons d blanks => rcases hblanks d List.mem_cons_self with rfl | rfl <;> exact fun h => nomatch h
  obtain ⟨q, t, ht, hr, hline, hgoes⟩ := Scan.exists_upto hfront hread
  obtain ⟨hplace, hq, hbefore⟩ := ht.place hr
  have hnl : '\n' ∉ blanks := fun hm => absurd (hgaps _ hm) (by decide)
  have hskip := (hgoes (blanks ++ (c ++ '\n' :: behind))).trans (Scan.State.goes_commentLine hgaps hc
    (show t.spot.rest ++ _ = blanks ++ (c ++ '\n' :: behind) by rw [hr]; rfl) hq hline)
  have hsame := hgoes behind
  rw [Scan.State.start_extend (.inr hmark')] at hskip
  rw [Scan.State.start_extend (.inr hmark)] at hsame
  have hrel : Scan.State.Relocated (Position.Lowers (front.count '\n' + 1) (c.count '\n' + 1))
      (Position.Lowers (front.count '\n' + 1) (c.count '\n' + 1)) id (t.extend behind)
      ((t.extend (blanks ++ (c ++ '\n' :: behind))).pastLine blanks c behind) (t.extend behind)
      ((t.extend (blanks ++ (c ++ '\n' :: behind))).pastLine blanks c behind) := by
    refine ⟨⟨?_, ⟨Nat.le_of_eq (congrArg Position.line hplace).symm, ?_⟩, hbefore.symm⟩,
      (List.map_id _).symm, rfl, rfl, .old, .old⟩
    · change behind = t.spot.rest ++ behind
      rw [hr, List.nil_append]
    · change (⟨t.spot.place.line + _ + 1, 1⟩ : Position) = ⟨t.spot.place.line + _, t.spot.place.column⟩
      rw [hplace, Nat.add_assoc]
  have hcolumns : ∀ p p', Position.Lowers (front.count '\n' + 1) (c.count '\n' + 1) p p' →
      p'.column = p.column := fun p p' hp => by rw [hp.2]
  have hrun := Scan.State.Relocated.comes (Position.carried_lowers _ _) hcolumns
    (hrel.moves (Position.carried_lowers _ _) hcolumns q) rfl
    (hsame.on (Scan.comes_scan m (front ++ behind)))
    (hskip.on (Scan.comes_scan m (front ++ (blanks ++ (c ++ '\n' :: behind)))))
  refine hrun.lowered rfl ?_ ?_ ht.tokens ht.hashComments
  · change CommentLine.reported c (t.spot.place.behind blanks) ++ t.hashComments = _
    rw [hplace, Position.behind_line hnl, Nat.add_comm 1]
    rfl
  · unfold CommentLine.reported
    split <;> rfl

/-- Such a line between the brackets of a call in a block. -/
theorem scan_commentLine_brackets :
    let front := "if a\n  b(\n".toList
    (∃ ts, (scan ⟨.builtIn, false⟩ front).tokens = .ok ts) ∧
      scan ⟨.builtIn, false⟩ (front ++ (['\t'] ++ (['#', 'c'] ++ '\n' :: ['3', ')']))) =
        (scan ⟨.builtIn, false⟩ (front ++ ['3', ')'])).lowered (front.count '\n' + 1) 1
          [⟨front.count '\n' + 1, 2⟩] := by
  intro front
  have hread : (scan ⟨.builtIn, false⟩ front).tokens.toOption.isSome = true := by decide +kernel
  obtain ⟨ts, hts⟩ := Option.isSome_iff_exists.1 hread
  have hok := toOption_eq_some.1 hts
  exact ⟨⟨ts, hok⟩, scan_commentLine (.inr (by decide +kernel)) ⟨ts, hok⟩ (by decide) (by simp)
    (.hash (by decide))⟩

end StoryLang
