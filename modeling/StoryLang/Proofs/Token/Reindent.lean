/-
Only the order of indentation widths matters.

If the `n` spaces in front of each line become `f n`, where `f` keeps the order
of widths and no width at all, the same tokens are read on the same lines, or
the same fault is met on the same line (`scan_reindent`). Lines that start in a
comment stay as they are. Code behind a comment has the width of its column,
which `f` knows nothing of, so no line may start its code there.

Two scanners go side by side. In the line that they are in they are in front of
the same text, and behind it the lines of the one text are those of the other
with other spaces.
-/
import StoryLang.Proofs.Token.Comment

namespace StoryLang

/-- The places are on the same line. -/
def Position.SameLine (p p' : Position) : Prop := p'.line = p.line

theorem Position.carried_sameLine : Carried SameLine := by
  intro p p' c h
  unfold after
  split
  · exact congrArg (· + 1) h
  · exact h

namespace Region

/-- Whether a place is in a comment that can go over several lines. -/
def inBlock : Region → Bool
  | .block | .star => true
  | _ => false

variable {m : ScanMode} {r : Region} {c : Char} {cs ds : List Char}

theorem after_newline (m : ScanMode) (r : Region) :
    (after m r '\n').inBlock = false → after m r '\n' = .code := by
  cases r <;> intro h
  all_goals first | rfl | cases h

theorem inBlock_after (h : r.inBlock = true) :
    after m r c = .code ∨ (after m r c).inBlock = true := by
  cases r with
  | block =>
    rw [after]
    split <;> exact .inr rfl
  | star =>
    rw [after]
    split
    · exact .inl rfl
    split <;> exact .inr rfl
  | code | slash | line | string => cases h

end Region

namespace Scan

/-- Whether no code is the first of its line behind a comment that can go over several lines, or
behind the end of one. -/
def codeFirst (m : ScanMode) : Region → Phase → List Char → Bool
  | _, _, [] => true
  | r, had, c :: cs =>
    if c = '\n' then codeFirst m (Region.after m r c) .fresh cs
    else if r.inBlock then codeFirst m (Region.after m r c) had.behindComment cs
    else if r = .code ∧ Spot.isGap c = false ∧ lead (c :: cs) = .code then
      had ≠ .commented && codeFirst m (Region.after m r c) .inLine cs
    else codeFirst m (Region.after m r c) had cs

/-- The spaces of a line, if it starts with any, that had so many before. -/
def spaces (f : Nat → Nat) : Option Nat → List Char
  | none => []
  | some n => List.replicate (f n) ' '

/-- A text with other spaces in front of its lines. At the start of a line they are counted. -/
def indented (m : ScanMode) (f : Nat → Nat) : Region → Option Nat → List Char → List Char
  | _, counted, [] => spaces f counted
  | r, counted, c :: cs =>
    if c = ' ' ∧ counted.isSome then indented m f r (counted.map (· + 1)) cs
    else
      spaces f counted ++ c :: indented m f (Region.after m r c)
        (if c = '\n' ∧ (Region.after m r c).inBlock = false then some 0 else none) cs

/-- A text in which every line that starts with `n` spaces starts with `f n`, unless it starts in a
comment. -/
def reindent (m : ScanMode) (f : Nat → Nat) (text : List Char) : List Char :=
  if text.head? = some Text.byteOrderMark then Text.byteOrderMark :: indented m f .code (some 0) text.tail
  else indented m f .code (some 0) text

variable {m : ScanMode} {f : Nat → Nat} {r : Region} {p q : Phase} {c : Char} {n : Nat}
  {cs ds taken more w : List Char}

/-! ## Comments in front of code -/

theorem codeFirst_newline : codeFirst m .code p ('\n' :: cs) = codeFirst m .code .fresh cs := by
  rw [codeFirst, if_pos rfl]
  rfl

theorem codeFirst_gap (hw : ∀ c ∈ w, Spot.isGap c = true) :
    codeFirst m .code p (w ++ cs) = codeFirst m .code p cs := by
  induction w with
  | nil => rfl
  | cons c w ih =>
    obtain ⟨hc, hw⟩ := List.forall_mem_cons.1 hw
    have hn : c ≠ '\n' := by
      rintro rfl
      cases hc
    rw [List.cons_append, codeFirst, if_neg hn, if_neg (by decide), if_neg (by simp [hc]),
      Region.after, Region.ofCode_gap hc, ih hw]

/-- Behind code a line is not looked at. -/
theorem codeFirst_cons_inLine : codeFirst m r .inLine (c :: cs) =
    codeFirst m (Region.after m r c) (if c = '\n' then .fresh else .inLine) cs := by
  rw [codeFirst]
  split
  · rfl
  split
  · rfl
  split <;> rfl

theorem codeFirst_inLine (h : codeFirst m r p cs = true) : codeFirst m r .inLine cs = true := by
  induction cs generalizing r p with
  | nil => rfl
  | cons c cs ih =>
    rw [codeFirst] at h
    rw [codeFirst_cons_inLine]
    split
    · rwa [if_pos ‹_›] at h
    rw [if_neg ‹_›] at h
    split at h
    · exact ih h
    split at h
    · exact (Bool.and_eq_true _ _ ▸ h).2
    · exact ih h

theorem codeFirst_append (h : codeFirst m r p (cs ++ ds) = true) :
    codeFirst m (Region.behind m r cs) .inLine ds = true := by
  induction cs generalizing r p with
  | nil => exact codeFirst_inLine h
  | cons c cs ih =>
    have hcode := codeFirst_inLine h
    rw [List.cons_append, codeFirst_cons_inLine] at hcode
    exact ih hcode

/-- All of a comment but its end is in it. -/
theorem inBlock_behind (h : Spot.commentText? (cs ++ ds) = some (cs ++ ds)) (hne : ds ≠ []) :
    (Region.behind m .block cs).inBlock = true := by
  induction cs using List.reverseRecOn generalizing ds with
  | nil => rfl
  | append_singleton cs c ih =>
    have hin := ih (List.append_assoc cs [c] ds ▸ h) (List.cons_ne_nil c ds)
    rw [Region.behind_append]
    refine (Region.inBlock_after hin).resolve_left fun hc => ?_
    -- the comment would have ended before
    have hcode : Region.behind m .block (cs ++ [c]) = .code := Region.behind_append.trans hc
    obtain ⟨inside, back, hcut, -, hi⟩ := Region.exists_commentText hcode
    rw [hi ds, hcut, List.append_assoc] at h
    have hnil := List.append_right_eq_self.1 (Option.some.inj h).symm
    exact hne (List.append_eq_nil_iff.1 hnil).2

theorem codeFirst_inBlock (hp : p ≠ .inLine) (hne : cs ≠ []) (hl : cs.getLast? ≠ some '\n')
    (hin : ∀ front back, cs = front ++ back → back ≠ [] → (Region.behind m r front).inBlock = true)
    (h : codeFirst m r p (cs ++ ds) = true) :
    codeFirst m (Region.behind m r cs) .commented ds = true := by
  have hcomment : p.behindComment = .commented := by
    cases p with
    | inLine => exact absurd rfl hp
    | fresh | commented => rfl
  induction cs generalizing r p with
  | nil => exact absurd rfl hne
  | cons c cs ih =>
    have hr : r.inBlock = true := hin [] _ rfl hne
    rw [List.cons_append, codeFirst, if_pos hr, hcomment] at h
    cases cs with
    | nil =>
      have hn : c ≠ '\n' := fun hc => hl (congrArg some hc)
      rwa [if_neg hn] at h
    | cons d cs =>
      rw [List.getLast?_cons_cons] at hl
      have hin' (front back : List Char) (he : d :: cs = front ++ back) (hb : back ≠ []) :
          (Region.behind m (Region.after m r c) front).inBlock = true :=
        hin (c :: front) back (congrArg (c :: ·) he) hb
      split at h
      · exact ih (by decide) (List.cons_ne_nil _ _) hl hin' h rfl
      · exact ih (by decide) (List.cons_ne_nil _ _) hl hin' h rfl

/-- What is in front of the blanks that a scanner passes does not matter. -/
theorem codeFirst_pastGap (s : State) :
    codeFirst m .code p s.spot.pastGap.rest = codeFirst m .code p s.spot.rest := by
  rw [Spot.pastGap, Spot.rest_pastWhile]
  conv_rhs => rw [← List.takeWhile_append_dropWhile (p := Spot.isGap) (l := s.spot.rest)]
  exact (codeFirst_gap fun c hc => List.mem_takeWhile_imp hc).symm

/-- Code may not come behind a comment. -/
theorem lead_pastGap {s : State} (h : codeFirst m .code .commented s.spot.rest = true) :
    lead s.spot.pastGap.rest ≠ .code := by
  intro hl
  rw [← codeFirst_pastGap] at h
  cases hr : s.spot.pastGap.rest with
  | nil =>
    rw [hr] at hl
    cases hl
  | cons c cs =>
    have hgap : Spot.isGap c = false := s.spot.head_pastGap c (hr ▸ rfl)
    rw [hr] at h hl
    have hn : c ≠ '\n' := by
      rintro rfl
      cases hl
    rw [codeFirst, if_neg hn, if_neg (by decide), if_pos ⟨rfl, hgap, hl⟩] at h
    cases h

/-- A line is commented only if it has no code yet. -/
theorem move_inLine {s t : State} (h : s.move m .inLine = .ok (t, some q)) : q ≠ .commented := by
  rw [State.move, State.act_inLine, State.readOn] at h
  split at h
  · cases h
  rename_i c rest _
  cases hu : (s.moveTo s.spot.pastGap).readNext m c rest with
  | error stop =>
    rw [hu] at h
    cases h
  | ok u =>
    rw [hu] at h
    obtain ⟨-, hq⟩ := Prod.mk.inj (Except.ok.inj h)
    obtain rfl := Option.some.inj hq
    unfold State.phase
    split <;> decide

/-- No code comes behind a comment after a move either. -/
theorem codeFirst_move {s t : State} (h : codeFirst m .code p s.spot.rest = true)
    (hx : s.move m p = .ok (t, some q)) (htook : Took m (s.moveTo s.spot.pastGap) taken q t) :
    codeFirst m .code q t.spot.rest = true := by
  rw [← codeFirst_pastGap] at h
  have hrest : s.spot.pastGap.rest = taken ++ t.spot.rest := htook.rest
  rw [hrest] at h
  -- reading goes on as if the text started there
  have hbehind : codeFirst m .code .inLine t.spot.rest = true := by
    have h := codeFirst_append h
    cases hr : t.spot.rest with
    | nil => rfl
    | cons c cs =>
      rw [hr, codeFirst_cons_inLine] at h
      rw [codeFirst_cons_inLine]
      have hc := htook.resumes c [] (hr ▸ ⟨cs, rfl⟩)
      rw [Region.behind_append] at hc
      rwa [show Region.after m (Region.behind m .code taken) c = Region.after m .code c from hc] at h
  cases htook.takes with
  | newline =>
    rw [List.cons_append, codeFirst_newline] at h
    exact h
  | within | token => exact hbehind
  | lineComment _ _ ends =>
    cases hr : t.spot.rest with
    | nil => rfl
    | cons c cs =>
      obtain rfl : c = '\n' := ends c (hr ▸ rfl)
      rw [hr, codeFirst_newline] at hbehind
      rwa [codeFirst_newline]
  | @blockComment inside _ _ closed =>
    have hp : p ≠ .inLine := by
      rintro rfl
      exact move_inLine hx rfl
    have hslash : lead ('/' :: '*' :: (inside ++ t.spot.rest)) = .comment := rfl
    have hblock : codeFirst m .block p (inside ++ t.spot.rest) = true := by
      rw [List.cons_append, List.cons_append, codeFirst, if_neg (by decide), if_neg (by decide),
        if_neg (by simp [hslash])] at h
      change codeFirst m .slash p ('*' :: (inside ++ t.spot.rest)) = true at h
      rwa [codeFirst, if_neg (by decide), if_neg (by decide), if_neg fun hs => nomatch hs.1] at h
    have hend := codeFirst_inBlock hp ?_ ?_ (fun front back he hb => ?_) hblock
    · rwa [Region.behind_commentText closed] at hend
    · rintro rfl
      cases closed
    · obtain ⟨front, rfl⟩ := Spot.commentText?_closed closed
      simp
    · subst he
      exact inBlock_behind closed hb

/-! ## Lines with other spaces -/

/-- A text in one line: the line can end only where the text does. -/
def OneLine (m : ScanMode) (r : Region) (cs : List Char) : Prop :=
  ∀ front back, cs = front ++ '\n' :: back → Region.behind m r (front ++ ['\n']) = .code → back = []

theorem OneLine.resumes (h : OneLine m .code (taken ++ cs)) (hm : Resumes m taken cs) :
    OneLine m .code cs := by
  rintro front back rfl hc
  refine h (taken ++ front) back (List.append_assoc _ _ _).symm ?_
  obtain ⟨d, ds, hd⟩ := List.exists_cons_of_ne_nil (List.append_ne_nil_of_right_ne_nil front (List.cons_ne_nil '\n' []))
  rw [List.append_assoc, hd, hm d ds, ← hd, hc]
  exact ⟨back, by rw [← hd, List.append_assoc]; rfl⟩

theorem indented_cons : indented m f r none (c :: cs) =
    c :: indented m f (Region.after m r c)
      (if c = '\n' ∧ (Region.after m r c).inBlock = false then some 0 else none) cs := by
  rw [indented, if_neg fun h => nomatch h.2]
  rfl

theorem indented_spaces (hw : ∀ c ∈ w, c = ' ') :
    indented m f r (some n) (w ++ cs) = indented m f r (some (n + w.length)) cs := by
  induction w generalizing n with
  | nil => rfl
  | cons c w ih =>
    obtain ⟨rfl, hspaces⟩ := List.forall_mem_cons.1 hw
    rw [List.cons_append, indented, if_pos ⟨rfl, rfl⟩]
    change indented m f r (some (n + 1)) (w ++ cs) = _
    rw [ih hspaces, List.length_cons, Nat.add_right_comm, Nat.add_assoc]

theorem indented_some (hc : cs.head? ≠ some ' ') :
    indented m f r (some n) cs = List.replicate (f n) ' ' ++ indented m f r none cs := by
  cases cs with
  | nil => exact (List.append_nil _).symm
  | cons c cs =>
    have hs : c ≠ ' ' := fun h => hc (congrArg some h)
    rw [indented_cons, indented, if_neg fun h => hs h.1]
    rfl

theorem head?_indented (cs : List Char) : (indented m f r none cs).head? = cs.head? := by
  cases cs with
  | nil => rfl
  | cons c cs => rw [indented_cons, List.head?_cons, List.head?_cons]

theorem indented_nil (hf0 : f 0 = 0) : indented m f r (some 0) [] = [] := by
  rw [indented, spaces, hf0]
  rfl

/-- The text up to the end of a line stays as it is, and a line with other spaces comes behind. -/
theorem exists_line (hf0 : f 0 = 0) (r : Region) (cs : List Char) :
    ∃ body more, cs = body ++ more ∧
      indented m f r none cs = body ++ indented m f .code (some 0) more ∧ OneLine m r body ∧
      (more = [] ∨ Region.behind m r body = .code ∧ body.getLast? = some '\n') := by
  induction cs generalizing r with
  | nil =>
    refine ⟨[], [], rfl, (indented_nil (m := m) (r := .code) hf0).symm, fun front back h => ?_, .inl rfl⟩
    exact absurd h (by simp)
  | cons c cs ih =>
    by_cases hends : c = '\n' ∧ (Region.after m r c).inBlock = false
    · obtain ⟨rfl, hb⟩ := hends
      refine ⟨['\n'], cs, rfl, ?_, ?_, .inr ⟨Region.after_newline m r hb, rfl⟩⟩
      · rw [indented_cons, if_pos (And.intro rfl hb), Region.after_newline m r hb]
        rfl
      · intro front back h _
        cases front with
        | nil => exact (List.cons.inj h).2.symm
        | cons d front => exact absurd (List.cons.inj h).2 (by simp)
    · obtain ⟨body, more, rfl, hi, hline, hmore⟩ := ih (Region.after m r c)
      refine ⟨c :: body, more, rfl, ?_, ?_, hmore.imp_right fun ⟨hc, hl⟩ => ⟨hc, ?_⟩⟩
      · rw [indented_cons, if_neg hends, hi]
        rfl
      · intro front back h hc
        cases front with
        | nil =>
          obtain ⟨rfl, -⟩ := List.cons.inj h
          refine absurd ⟨rfl, ?_⟩ hends
          rw [show Region.after m r '\n' = .code from hc]
          rfl
        | cons d front =>
          obtain ⟨rfl, hbody⟩ := List.cons.inj h
          exact hline front back hbody hc
      · obtain ⟨front, rfl⟩ := List.getLast?_eq_some_iff.1 hl
        exact List.getLast?_concat (l := c :: front)

/-! ## Two scanners -/

/-- Two scanners, of which one reads the text with other spaces. They are in the same line, in which
they are `a` and `b` in front of the same text, and `more` comes behind the line. -/
structure Aligned (m : ScanMode) (f : Nat → Nat) (o o' : State) (more : List Char) (a b s s' : State) :
    Prop where
  left : s = a.extend more
  right : s' = b.extend (indented m f .code (some 0) more)
  related : State.Relocated Position.SameLine Position.SameLine f o o' a b
  line : OneLine m .code a.spot.rest
  ends : more = [] ∨ Region.behind m .code a.spot.rest = .code ∧ ∀ c ∈ a.spot.rest.getLast?, c = '\n'

namespace Aligned

variable {o o' a b s s' : State}

theorem moveTo_eq (s : State) {z : Spot} (hz : z.rest = cs ++ ds) :
    s.moveTo z = (s.moveTo { z with rest := cs }).extend ds := by
  obtain ⟨rest, place, before⟩ := z
  obtain rfl := hz
  rfl

/-- The blanks that a line starts with, in both texts. -/
theorem takeWhile_indented (hw : ∀ c ∈ w, c = ' ') (hd : ∀ c ∈ ds.head?, Spot.isGap c = false) :
    indented m f .code (some 0) (w ++ ds) = List.replicate (f w.length) ' ' ++ indented m f .code none ds ∧
      (indented m f .code (some 0) (w ++ ds)).takeWhile Spot.isGap = List.replicate (f w.length) ' ' ∧
      (indented m f .code (some 0) (w ++ ds)).dropWhile Spot.isGap = indented m f .code none ds := by
  have hcut : indented m f .code (some 0) (w ++ ds) =
      List.replicate (f w.length) ' ' ++ indented m f .code none ds := by
    rw [indented_spaces hw, Nat.zero_add, indented_some fun h => absurd (hd ' ' h) (by decide)]
  have hgap : ∀ c ∈ List.replicate (f w.length) ' ', Spot.isGap c = true := fun c hc => by
    rw [List.eq_of_mem_replicate hc]
    rfl
  have hends : ∀ c ∈ (indented m f .code none ds).head?, Spot.isGap c = false := by
    rw [head?_indented]
    exact hd
  obtain ⟨htake, hdrop⟩ := @Text.run_append [] (indented m f .code none ds) Spot.isGap (.inr hends)
  rw [List.nil_append] at htake hdrop
  refine ⟨hcut, ?_, ?_⟩
  · rw [hcut, List.takeWhile_append_of_pos hgap, htake, List.takeWhile_nil, List.append_nil]
  · rw [hcut, List.dropWhile_append_of_pos hgap, hdrop]
    rfl

/-- Behind the blanks of a line that starts. -/
theorem start (hf : StrictMono f) (hf0 : f 0 = 0) (h : Aligned m f o o' more a b s s')
    (hblanks : ∀ c ∈ s.spot.rest, Spot.isGap c = true → c = ' ') (ha : a.spot.rest = []) :
    s'.width = f s.width ∧ ∃ more a b, Aligned m f o o' more a b (s.moveTo s.spot.pastGap)
      (s'.moveTo s'.spot.pastGap) ∧ (a.spot.rest = [] → more = []) := by
  obtain ⟨rfl, rfl, hrel, -, -⟩ := h
  have hr : (a.extend more).spot.rest = more := by
    change a.spot.rest ++ more = more
    rw [ha, List.nil_append]
  have hr' : (b.extend (indented m f .code (some 0) more)).spot.rest = indented m f .code (some 0) more := by
    change b.spot.rest ++ _ = _
    rw [hrel.spot.rest, ha, List.nil_append]
  rw [hr] at hblanks
  have hw : ∀ c ∈ more.takeWhile Spot.isGap, c = ' ' := fun c hc =>
    hblanks c ((List.takeWhile_sublist _).subset hc) (List.mem_takeWhile_imp hc)
  have hd : ∀ c ∈ (more.dropWhile Spot.isGap).head?, Spot.isGap c = false := by
    have hhead := (a.extend more).spot.head_pastGap
    rwa [Spot.pastGap, Spot.rest_pastWhile, hr] at hhead
  obtain ⟨-, htake, hdrop⟩ := takeWhile_indented (m := m) (f := f) hw hd
  rw [List.takeWhile_append_dropWhile] at htake hdrop
  refine ⟨?_, ?_⟩
  · rw [State.width, State.width, hr, hr', htake, State.widthFrom_spaces hw,
      State.widthFrom_spaces fun c hc => List.eq_of_mem_replicate hc]
    simp
  obtain ⟨body, more', hbody, hindented, hline, hends⟩ :=
    exists_line (m := m) hf0 .code (more.dropWhile Spot.isGap)
  have hz : (a.extend more).spot.pastGap.rest = body ++ more' := by
    rw [Spot.pastGap, Spot.rest_pastWhile, hr, hbody]
  have hz' : (b.extend (indented m f .code (some 0) more)).spot.pastGap.rest =
      body ++ indented m f .code (some 0) more' := by
    rw [Spot.pastGap, Spot.rest_pastWhile, hr', hdrop, hindented]
  have hmore : body = [] → more' = [] := by
    rintro rfl
    obtain hnil | ⟨-, hl⟩ := hends
    · exact hnil
    · cases hl
  have hlast : more' = [] ∨ Region.behind m .code body = .code ∧ ∀ c ∈ body.getLast?, c = '\n' :=
    hends.imp_right (And.imp_right fun hl c hm => Option.some.inj (hm.symm.trans hl))
  refine ⟨more', _, _, ⟨moveTo_eq _ hz, moveTo_eq _ hz', ⟨⟨rfl, ?_, ?_⟩, hrel.indents, hrel.brackets,
    hrel.atLineStart, hrel.tokens, hrel.hashComments⟩, hline, hlast⟩, hmore⟩
  · change (Spot.pastGap _).place.line = (Spot.pastGap _).place.line
    rw [Spot.place_pastGap, Spot.place_pastGap]
    exact hrel.spot.place
  · change (Spot.pastGap _).before.any _ = (Spot.pastGap _).before.any _
    rw [Spot.before_pastGap, Spot.before_pastGap, hr, hr', htake]
    have hempty : (List.replicate (f (more.takeWhile Spot.isGap).length) ' ').isEmpty =
        (more.takeWhile Spot.isGap).isEmpty := by
      have hzero := hf.injective.eq_iff' hf0 (a := (more.takeWhile Spot.isGap).length)
      rw [Bool.eq_iff_iff, List.isEmpty_iff, List.isEmpty_iff, List.replicate_eq_nil_iff, hzero,
        List.length_eq_zero_iff]
    rw [hempty]
    exact congrArg _ hrel.spot.before

/-- Behind the blanks in a line. -/
theorem pastGap (hf0 : f 0 = 0) (h : Aligned m f o o' more a b s s') (ha : a.spot.rest ≠ []) :
    ∃ more a b, Aligned m f o o' more a b (s.moveTo s.spot.pastGap) (s'.moveTo s'.spot.pastGap) ∧
      (a.spot.rest = [] → more = []) := by
  obtain ⟨rfl, rfl, hrel, hline, hends⟩ := h
  have hcut : a.spot.rest = a.spot.rest.takeWhile Spot.isGap ++ a.spot.pastGap.rest := by
    rw [Spot.pastGap, Spot.rest_pastWhile, List.takeWhile_append_dropWhile]
  have hgap : ∀ c ∈ a.spot.rest.takeWhile Spot.isGap, Region.ofCode m c = .code :=
    fun c hc => Region.ofCode_gap (List.mem_takeWhile_imp hc)
  have hline' : OneLine m .code a.spot.pastGap.rest := by
    rw [hcut] at hline
    exact hline.resumes (.of_code (Region.behind_code hgap))
  have hrel' := hrel.pastGap Position.carried_sameLine
  by_cases hend : a.spot.pastGap.rest = []
  · -- the line has no end, so it is the last one
    have hmore : more = [] := by
      refine hends.resolve_right fun hcut => ?_
      have hlast := List.getLast?_eq_some_getLast ha
      rw [hcut.2 _ hlast] at hlast
      have hnl := last_pastGap hlast
      rw [hend] at hnl
      cases hnl
    subst hmore
    rw [indented_nil hf0, State.extend_nil, State.extend_nil]
    refine ⟨[], _, _, ⟨(State.extend_nil _).symm, ?_, hrel', hline', .inl rfl⟩, fun _ => rfl⟩
    rw [indented_nil hf0, State.extend_nil]
  · have hend' : b.spot.pastGap.rest ≠ [] := by
      rwa [show b.spot.pastGap.rest = a.spot.pastGap.rest from hrel'.spot.rest]
    refine ⟨more, _, _, ⟨?_, ?_, hrel', hline', ?_⟩, fun h => absurd h hend⟩
    · exact congrArg _ (Spot.pastGap_extend hend)
    · exact congrArg _ (Spot.pastGap_extend hend')
    · refine hends.imp_right fun h => ⟨(behind_gap a).symm.trans h.1, fun c hm => h.2 c ?_⟩
      rw [hcut, List.getLast?_append_of_ne_nil _ hend]
      exact hm

/-- What is behind the line does not matter in it. -/
theorem act_line (h : more = [] ∨ Region.behind m .code s.spot.rest = .code ∧
      ∀ c ∈ s.spot.rest.getLast?, c = '\n') (hne : s.spot.rest = [] → more = []) (v : Nat) :
    (s.extend more).act m p v = (s.act m p v).map fun x => (x.1.extend more, x.2) := by
  by_cases hmore : more = []
  · subst hmore
    simp only [State.extend_nil]
    cases s.act m p v <;> rfl
  · obtain ⟨hcode, hl⟩ := h.resolve_left hmore
    exact State.act_extend ⟨hcode, .inl hl⟩ (mt hne hmore)

/-- Where two scanners go side by side, behind a move. -/
structure Next (m : ScanMode) (f : Nat → Nat) (o o' : State) (x x' : State × Option Phase) : Prop where
  phase : x'.2 = x.2
  done : x.2 = none → State.Relocated Position.SameLine Position.SameLine f o o' x.1 x'.1
  aligned : ∀ q, x.2 = some q → ∃ more a b, Aligned m f o o' more a b x.1 x'.1 ∧
    (q = .fresh → a.spot.rest = [])

/-- Behind the blanks both do the same, if code has related widths there. -/
theorem act (hf : StrictMono f) (hf0 : f 0 = 0) (h : Aligned m f o o' more a b s s')
    (hmore : a.spot.rest = [] → more = []) (hs : p = .inLine → s.atLineStart = false) {v v' : Nat}
    (hv : p ≠ .inLine → lead s.spot.rest = .code → v' = f v) :
    EndAlike (Stop.Relocated Position.SameLine Position.SameLine o o') (Next m f o o')
      (s.act m p v) (s'.act m p v') := by
  obtain ⟨rfl, rfl, hrel, hline, hends⟩ := h
  have hv' (hp : p ≠ .inLine) (hl : lead a.spot.rest = .code) : v' = f v := by
    refine hv hp ?_
    change lead (a.spot.rest ++ more) = _
    obtain rfl | ⟨hcode, -⟩ := hends
    · rwa [List.append_nil]
    · rwa [State.lead_append hcode]
      intro hr
      rw [hr] at hl
      cases hl
  have hact := hrel.act hf hf0 Position.carried_sameLine hrel.spot.place hv' (m := m)
  have hends' : indented m f .code (some 0) more = [] ∨ Region.behind m .code b.spot.rest = .code ∧
      ∀ c ∈ b.spot.rest.getLast?, c = '\n' := by
    rw [hrel.spot.rest]
    refine hends.imp_left fun hm => ?_
    rw [hm, indented_nil hf0]
  rw [act_line hends hmore, act_line hends' fun hb => by rw [hmore (hrel.spot.rest ▸ hb), indented_nil hf0]]
  generalize hx : a.act m p v = x, b.act m p v' = x' at hact
  cases hact with
  | error reasons => exact .error reasons
  | @ok x x' results =>
    obtain ⟨t, y⟩ := x
    obtain ⟨t', y'⟩ := x'
    obtain ⟨ht, rfl⟩ := results
    have htook := State.took_act (show p = .inLine → a.atLineStart = false from hs) hx
    refine .ok ⟨rfl, fun hy => ?_, fun q hy => ⟨more, t, t', ⟨rfl, rfl, ht, ?_, ?_⟩, ?_⟩⟩
    · obtain ⟨-, hr⟩ | ⟨q, taken, hq, -⟩ := htook
      · obtain rfl := hmore hr
        dsimp only
        rwa [indented_nil hf0, State.extend_nil, State.extend_nil]
      · exact absurd (hq.symm.trans hy) (by simp)
    all_goals
      obtain ⟨hq, -⟩ | ⟨q', taken, hq, htook⟩ := htook
      · exact absurd (hq.symm.trans hy) (by simp)
      obtain rfl := Option.some.inj (hq.symm.trans hy)
      rw [htook.rest] at hline
    · exact hline.resumes htook.resumes
    · refine hends.imp_right fun ⟨hcode, hl⟩ => ⟨htook.resumes.code (htook.rest ▸ hcode), fun c hc => ?_⟩
      rw [htook.rest, List.getLast?_append, Option.mem_def.1 hc] at hl
      exact hl c rfl
    · rintro rfl
      cases htook.takes with
      | newline => exact hline [] _ rfl rfl

end Aligned

/-- Two scanners side by side, in a text in which no comment is in front of the code of a line. -/
structure Reindented (m : ScanMode) (f : Nat → Nat) (o o' : State) (p : Phase) (s s' : State) : Prop where
  aligned : ∃ more a b, Aligned m f o o' more a b s s' ∧ (p = .fresh → a.spot.rest = [])
  inLine : p = .inLine → s.atLineStart = false
  first : codeFirst m .code p s.spot.rest = true
  blanks : ∀ c ∈ s.spot.rest, Spot.isGap c = true → c = ' '

namespace Reindented

variable {o o' s s' : State}

/-- Each move leads both to the same place. -/
theorem move (hf : StrictMono f) (hf0 : f 0 = 0) (h : Reindented m f o o' p s s') :
    EndAlike (Stop.Relocated Position.SameLine Position.SameLine o o')
      (Alongside (State.Relocated Position.SameLine Position.SameLine f o o') (Reindented m f o o'))
      (s.move m p) (s'.move m p) := by
  obtain ⟨⟨more, a, b, haligned, hfresh⟩, hs, hfirst, hblanks⟩ := h
  have hgap : (p = .fresh → s'.width = f s.width) ∧ ∃ more a b, Aligned m f o o' more a b
      (s.moveTo s.spot.pastGap) (s'.moveTo s'.spot.pastGap) ∧ (a.spot.rest = [] → more = []) := by
    by_cases ha : a.spot.rest = []
    · exact (haligned.start hf hf0 hblanks ha).imp_left fun hw _ => hw
    · exact ⟨fun hp => absurd (hfresh hp) ha, haligned.pastGap hf0 ha⟩
  obtain ⟨hwidth, more, a, b, haligned, hmore⟩ := hgap
  have hv (hp : p ≠ .inLine) (hl : lead s.spot.pastGap.rest = .code) :
      s'.indentation p = f (s.indentation p) := by
    cases p with
    | fresh => exact hwidth rfl
    | inLine => exact absurd rfl hp
    | commented => exact absurd hl (lead_pastGap hfirst)
  have hact := haligned.act hf hf0 hmore hs hv
  change EndAlike _ _ (s.move m p) (s'.move m p) at hact
  generalize hx : s.move m p = x, s'.move m p = x' at hact ⊢
  cases hact with
  | error reasons => exact .error reasons
  | @ok x x' results =>
    obtain ⟨t, y⟩ := x
    obtain ⟨t', y'⟩ := x'
    obtain ⟨rfl, hdone, hnext⟩ := results
    refine .ok ?_
    cases y' with
    | none => exact .done (hdone rfl)
    | some q =>
      obtain ⟨hq, -⟩ | ⟨q', taken, hq, htook⟩ := State.took_act (s := s.moveTo s.spot.pastGap) hs hx
      · cases hq
      obtain rfl := Option.some.inj hq
      refine .on ⟨hnext q rfl, htook.inLine, codeFirst_move hfirst hx htook, fun c hc =>
        hblanks c (htook.suffix.subset hc)⟩

end Reindented

/-! ## Texts -/

/-- No mark of the text comes to its start. -/
theorem head_indented (hf : StrictMono f) (hf0 : f 0 = 0)
    (h : n ≠ 0 ∨ cs.head? ≠ some Text.byteOrderMark) :
    (indented m f r (some n) cs).head? ≠ some Text.byteOrderMark := by
  have hspace (n : Nat) (ds : List Char) (hn : n ≠ 0) :
      (List.replicate (f n) ' ' ++ ds).head? ≠ some Text.byteOrderMark := by
    obtain ⟨k, hk⟩ := Nat.exists_eq_succ_of_ne_zero (mt (hf.injective.eq_iff' hf0).1 hn)
    rw [hk, List.replicate_succ]
    exact fun he => nomatch he
  induction cs generalizing n with
  | nil =>
    by_cases hn : n = 0
    · subst hn
      rw [indented_nil hf0]
      exact fun he => nomatch he
    · have hn := hspace n [] hn
      rwa [List.append_nil] at hn
  | cons c cs ih =>
    by_cases hc : c = ' '
    · rw [indented, if_pos ⟨hc, rfl⟩]
      exact ih (.inl (Nat.succ_ne_zero n))
    have hhead : (c :: cs).head? ≠ some ' ' := fun he => hc (Option.some.inj he)
    rw [indented_some hhead]
    by_cases hn : n = 0
    · subst hn
      rw [hf0, List.replicate_zero, List.nil_append, head?_indented]
      exact h.resolve_left (absurd rfl)
    · exact hspace n _ hn

theorem dropMark_reindent (hf : StrictMono f) (hf0 : f 0 = 0) (text : List Char) :
    Text.dropMark (reindent m f text) = indented m f .code (some 0) (Text.dropMark text) := by
  unfold reindent
  split
  · rename_i h
    obtain ⟨more, rfl⟩ := List.head?_eq_some_iff.1 h
    rfl
  · rename_i h
    have hdrop (ds : List Char) (hd : ds.head? ≠ some Text.byteOrderMark) : Text.dropMark ds = ds := by
      cases ds with
      | nil => rfl
      | cons d ds => exact if_neg fun he => hd (congrArg some he)
    rw [hdrop text h, hdrop _ (head_indented hf hf0 (.inr h))]

end Scan

open Scan in
/-- Other widths in the same order change no token and no line. -/
theorem scan_reindent {m : ScanMode} {f : Nat → Nat} (hf : StrictMono f) (hf0 : f 0 = 0) {text : List Char}
    (hblanks : ∀ c ∈ text, c ≠ '\t' ∧ c ≠ '\r' ∧ c ≠ '\x0c')
    (hfirst : codeFirst m .code .fresh (Text.dropMark text) = true) :
    EndAlike (fun fault fault' => fault'.cause = fault.cause ∧ fault'.position.line = fault.position.line)
      (List.Forall₂ (Token.Relocated Position.SameLine))
      (scan m text).tokens (scan m (reindent m f text)).tokens := by
  have hspaces : ∀ c ∈ Text.dropMark text, Spot.isGap c = true → c = ' ' := by
    intro c hc hg
    have hne := hblanks c ((Text.dropMark_suffix text).subset hc)
    simp only [Spot.isGap, Bool.or_eq_true, decide_eq_true_eq, or_assoc] at hg
    rcases hg with rfl | rfl | rfl | hg
    · rfl
    · exact absurd rfl hne.1
    · exact absurd rfl hne.2.1
    · refine absurd ?_ hne.2.2
      rw [← Char.ofNat_toNat c, hg]
  have hstart : Reindented m f (.start text) (.start (reindent m f text)) .fresh (.start text)
      (.start (reindent m f text)) := by
    refine ⟨⟨Text.dropMark text, (State.start text).moveTo ⟨[], .first, none⟩,
      (State.start (reindent m f text)).moveTo ⟨[], .first, none⟩,
      ⟨rfl, ?_, ⟨⟨rfl, rfl, rfl⟩, rfl, rfl, rfl, .old, .old⟩, ?_, .inr ⟨rfl, ?_⟩⟩, fun _ => rfl⟩,
      ?_, hfirst, hspaces⟩
    · rw [← dropMark_reindent hf hf0]
      rfl
    · intro front back h
      change [] = front ++ '\n' :: back at h
      exact absurd h (by simp)
    · intro c hc
      cases hc
    · intro h
      cases h
  obtain ⟨e, e', he, hr, hr'⟩ | ⟨t, t', ht, hr, hr'⟩ := Comes.related (fun _ _ _ h => h.move hf hf0)
    (hstart.move hf hf0) (comes_scan m text) (comes_scan m (reindent m f text))
  · rw [hr, hr']
    exact .error ⟨he.cause, he.position⟩
  · obtain ⟨new, new', hn, hn', hnew⟩ := ht.finish ht.spot.place rfl
    rw [hr, hr']
    refine .ok ?_
    rw [hn, hn']
    exact hnew

/-- Blocks with a comment, a call over several lines and an indentation that does not come back. -/
theorem scan_reindent_tripled :
    let text := "if a\n  b(\n 1)\n    // c\n  if d\n     e\n   /* f\n g */\n    h".toList
    let wider := "if a\n      b(\n   1)\n            // c\n      if d\n               e\n         /* f\n g */\n            h".toList
    StrictMono (3 * ·) ∧ (∀ c ∈ text, c ≠ '\t' ∧ c ≠ '\r' ∧ c ≠ '\x0c') ∧
      Scan.codeFirst ⟨.builtIn, false⟩ .code .fresh (Text.dropMark text) = true ∧
      EndAlike (fun fault fault' => fault'.cause = fault.cause ∧ fault'.position.line = fault.position.line)
        (List.Forall₂ (Token.Relocated Position.SameLine))
        (scan ⟨.builtIn, false⟩ text).tokens (scan ⟨.builtIn, false⟩ wider).tokens := by
  intro text wider
  have hf : StrictMono (3 * ·) := fun a b h => Nat.mul_lt_mul_of_pos_left h (by decide)
  have hall : text.all (fun c => c ≠ '\t' ∧ c ≠ '\r' ∧ c ≠ '\x0c') = true := by decide +kernel
  have hblanks : ∀ c ∈ text, c ≠ '\t' ∧ c ≠ '\r' ∧ c ≠ '\x0c' := fun c hc =>
    of_decide_eq_true (List.all_eq_true.1 hall c hc)
  have hfirst : Scan.codeFirst ⟨.builtIn, false⟩ .code .fresh (Text.dropMark text) = true := by decide +kernel
  have hwider : wider = Scan.reindent ⟨.builtIn, false⟩ (3 * ·) text := by decide +kernel
  exact ⟨hf, hblanks, hfirst, hwider ▸ scan_reindent hf rfl hblanks hfirst⟩

end StoryLang
