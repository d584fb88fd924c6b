/-
A text that goes on.

What the scanner does in a text does not depend on what comes behind the text,
if no comment, string or token goes on there. Such an end is a `Seam`. A move
that starts in front of one is the same move in the text that goes on, and
leaves the scanner in front of the seam again.
-/
import StoryLang.Proofs.Token.Moves
import StoryLang.Proofs.Token.Region

namespace StoryLang

namespace Text

variable {cs more : List Char} {p : Char → Bool}

/-- No word, number or symbol goes on with the text. -/
def Soft (more : List Char) : Prop :=
  ∀ c ∈ more.head?, Grammar.isWordChar c = false ∧ c ≠ '.' ∧ c ≠ '='

theorem soft_nil : Soft [] := by
  rintro c ⟨⟩

/-- A run of characters that ends in a text, or where the text goes on, ends there. -/
theorem run_append (h : (∃ c ∈ cs, p c = false) ∨ ∀ c ∈ more.head?, p c = false) :
    (cs ++ more).takeWhile p = cs.takeWhile p ∧ (cs ++ more).dropWhile p = cs.dropWhile p ++ more := by
  induction cs with
  | nil =>
    obtain ⟨c, hc, -⟩ | h := h
    · cases hc
    cases more with
    | nil => exact ⟨rfl, rfl⟩
    | cons c more =>
      have hc : ¬ p c = true := by simpa using h c rfl
      rw [List.nil_append, List.takeWhile_cons_of_neg hc, List.dropWhile_cons_of_neg hc]
      exact ⟨rfl, rfl⟩
  | cons c cs ih =>
    rw [List.cons_append]
    by_cases hc : p c = true
    · have hs := ih <| h.imp_left fun ⟨d, hd, hp⟩ => by
        obtain rfl | hd := List.mem_cons.1 hd
        · rw [hc] at hp
          cases hp
        · exact ⟨d, hd, hp⟩
      rw [List.takeWhile_cons_of_pos hc, List.takeWhile_cons_of_pos hc, List.dropWhile_cons_of_pos hc,
        List.dropWhile_cons_of_pos hc, hs.1, hs.2]
      exact ⟨rfl, rfl⟩
    · rw [List.takeWhile_cons_of_neg hc, List.takeWhile_cons_of_neg hc, List.dropWhile_cons_of_neg hc,
        List.dropWhile_cons_of_neg hc]
      exact ⟨rfl, rfl⟩

theorem dropMark_suffix (cs : List Char) : dropMark cs <:+ cs := by
  cases cs with
  | nil => exact List.suffix_refl _
  | cons c cs =>
    rw [dropMark]
    split
    · exact List.suffix_cons c cs
    · exact List.suffix_refl _

theorem dropMark_append (h : cs ≠ [] ∨ more.head? ≠ some byteOrderMark) :
    dropMark (cs ++ more) = dropMark cs ++ more := by
  cases cs with
  | nil =>
    cases more with
    | nil => rfl
    | cons d more =>
      have hd : d ≠ byteOrderMark := by simpa using h
      exact if_neg hd
  | cons c cs =>
    rw [List.cons_append, dropMark, dropMark]
    split <;> rfl

end Text

namespace Spot

variable {z : Spot} {c : Char} {cs taken more : List Char} {p : Char → Bool}

/-- The same place of a text that goes on. -/
def extend (more : List Char) (z : Spot) : Spot := { z with rest := z.rest ++ more }

theorem next_extend (h : z.rest = c :: cs) : (z.extend more).next = z.next.extend more := by
  simp [next, extend, h]

theorem past_extend (h : z.rest = taken ++ cs) :
    (z.extend more).past taken = (z.past taken).extend more := by
  induction taken generalizing z with
  | nil => rfl
  | cons c taken ih =>
    change (z.extend more).next.past taken = (z.next.past taken).extend more
    rw [next_extend h]
    exact ih (next_spec h).1

theorem pastWhile_extend (h : (z.rest ++ more).takeWhile p = z.rest.takeWhile p) :
    (z.extend more).pastWhile p = (z.pastWhile p).extend more := by
  unfold pastWhile
  rw [show (z.extend more).rest = z.rest ++ more from rfl, h]
  exact past_extend List.takeWhile_append_dropWhile.symm

/-- Blanks that end in the text. -/
theorem gap_append (h : z.pastGap.rest ≠ []) :
    (z.rest ++ more).takeWhile isGap = z.rest.takeWhile isGap := by
  refine (Text.run_append (.inl ?_)).1
  obtain ⟨c, cs, hc⟩ := List.exists_cons_of_ne_nil h
  refine ⟨c, ?_, z.head_pastGap c (hc ▸ rfl)⟩
  rw [pastGap, rest_pastWhile] at hc
  exact (List.dropWhile_sublist _).subset (hc ▸ List.mem_cons_self)

theorem pastGap_extend (h : z.pastGap.rest ≠ []) :
    (z.extend more).pastGap = z.pastGap.extend more :=
  pastWhile_extend (gap_append h)

theorem lineEnd_extend (h : '\n' ∈ z.rest) : (z.extend more).lineEnd = z.lineEnd.extend more :=
  pastWhile_extend (Text.run_append (.inl ⟨'\n', h, by decide⟩)).1

end Spot

open Region (behind behind_cons behind_append)

namespace Scan

/-- Where a text can go on: it ends in code and at the end of a line, or no token goes on there. -/
structure Seam (m : ScanMode) (cs more : List Char) : Prop where
  code : behind m .code cs = .code
  ends : (∀ c ∈ cs.getLast?, c = '\n') ∨ Text.Soft more

variable {m : ScanMode} {c : Char} {cs more : List Char} {p : Char → Bool}

/-- Words and numbers of the text end in it. -/
theorem word_append (h : cs.getLast? = some '\n' ∨ Text.Soft more)
    (hp : ∀ c, p c = true → Grammar.isWordChar c = true) :
    (cs ++ more).takeWhile p = cs.takeWhile p ∧ (cs ++ more).dropWhile p = cs.dropWhile p ++ more := by
  have stops (c : Char) (hc : Grammar.isWordChar c = false) : p c = false := by
    cases hpc : p c with
    | false => rfl
    | true =>
      rw [hp c hpc] at hc
      cases hc
  exact Text.run_append (h.imp (fun hl => ⟨'\n', List.mem_of_getLast? hl, stops _ (by decide)⟩)
    fun hs c hc => stops c (hs c hc).1)

theorem isWordChar_of_isDigit (h : Text.isDigit c = true) : Grammar.isWordChar c = true := by
  rw [Grammar.isWordChar, h, Bool.or_true]

theorem Seam.last (h : Seam m cs more) (hne : cs ≠ []) :
    cs.getLast? = some '\n' ∨ Text.Soft more := by
  have hl := List.getLast?_eq_some_getLast hne
  exact h.ends.imp_left fun he => by rw [hl, he _ hl]

theorem pointed_of_ne (hc : c ≠ '.') : pointed (c :: cs) = false := by
  unfold pointed
  split
  · rename_i he
    exact absurd (List.cons.inj he).1 hc
  · rfl

theorem pointed_append (h : cs.getLast? = some '\n' ∨ Text.Soft more) :
    pointed (cs ++ more) = pointed cs := by
  match cs with
  | [] =>
    obtain h | h := h
    · cases h
    cases more with
    | nil => rfl
    | cons c more => exact pointed_of_ne (h c rfl).2.1
  | [d] =>
    by_cases hd : d = '.'
    · subst hd
      obtain h | h := h
      · cases h
      cases more with
      | nil => rfl
      | cons c more =>
        have hc := (h c rfl).1
        rw [Grammar.isWordChar, Bool.or_eq_false_iff] at hc
        exact hc.2
    · exact (pointed_of_ne hd).trans (pointed_of_ne hd).symm
  | d :: e :: cs =>
    by_cases hd : d = '.'
    · subst hd
      rfl
    · exact (pointed_of_ne hd).trans (pointed_of_ne hd).symm

namespace State

variable {s : State} {rest taken r : List Char}

/-- The same state of a text that goes on. -/
def extend (more : List Char) (s : State) : State := { s with spot := s.spot.extend more }

theorem extend_nil (s : State) : s.extend [] = s := by
  simp [extend, Spot.extend]

theorem start_extend {text : List Char} (h : text ≠ [] ∨ more.head? ≠ some Text.byteOrderMark) :
    (start text).extend more = start (text ++ more) := by
  unfold start
  rw [Text.dropMark_append h]
  rfl

theorem push_extend (h : s.spot.rest = taken ++ r) (kind : TokenKind) :
    (s.extend more).push kind taken = (s.push kind taken).extend more := by
  unfold push
  rw [show (s.extend more).spot = s.spot.extend more from rfl, Spot.past_extend h]
  rfl

theorem moveTo_next_extend (h : s.spot.rest = c :: rest) :
    (s.extend more).moveTo (s.extend more).spot.next = (s.moveTo s.spot.next).extend more := by
  rw [show (s.extend more).spot = s.spot.extend more from rfl, Spot.next_extend h]
  rfl

/-! ## Comments -/

theorem lineEnd_extend (h : '\n' ∈ s.spot.rest) :
    (s.extend more).moveTo (s.extend more).spot.lineEnd = (s.moveTo s.spot.lineEnd).extend more := by
  rw [show (s.extend more).spot = s.spot.extend more from rfl, Spot.lineEnd_extend h]
  rfl

theorem pastHash_extend (h : '\n' ∈ s.spot.rest) :
    (s.extend more).pastHash = s.pastHash.extend more := by
  unfold pastHash
  rw [show (s.extend more).spot = s.spot.extend more from rfl, Spot.lineEnd_extend h]
  rfl

theorem pastComment_extend (hr : s.spot.rest = '/' :: '*' :: rest) (h : behind m .block rest = .code) :
    (s.extend more).pastComment = s.pastComment.map (extend more) := by
  obtain ⟨inside, ds, rfl, -, hi⟩ := Region.exists_commentText h
  have hn : (s.spot.extend more).next.next = s.spot.next.next.extend more := by
    rw [Spot.next_extend hr, Spot.next_extend (Spot.next_spec hr).1]
  have hr2 : s.spot.next.next.rest = inside ++ ds := (Spot.next_spec (Spot.next_spec hr).1).1
  unfold pastComment Spot.pastComment?
  rw [show (s.extend more).spot = s.spot.extend more from rfl]
  simp only [hn]
  rw [show (s.spot.next.next.extend more).rest = s.spot.next.next.rest ++ more from rfl, hr2, hi]
  have hnil := hi []
  rw [List.append_nil] at hnil
  rw [hnil]
  change Except.ok ((s.extend more).moveTo ((s.spot.next.next.extend more).past inside)) = _
  rw [Spot.past_extend hr2]
  rfl

/-! ## Tokens -/

theorem readName_extend (h : Seam m s.spot.rest more) (hne : s.spot.rest ≠ []) (g : Grammar) :
    (s.extend more).readName g = (s.readName g).extend more := by
  unfold readName
  rw [show (s.extend more).spot.rest = s.spot.rest ++ more from rfl,
    (word_append (h.last hne) fun _ hc => hc).1]
  exact push_extend List.takeWhile_append_dropWhile.symm _

theorem intToken_extend (hr : s.spot.rest = taken ++ rest) :
    readNumber.intToken (s.extend more) taken = (readNumber.intToken s taken).map (extend more) := by
  unfold readNumber.intToken
  split
  · rw [push_extend hr]
    rfl
  · rfl

theorem readNumber_extend (h : Seam m s.spot.rest more) (hne : s.spot.rest ≠ []) :
    (s.extend more).readNumber = s.readNumber.map (extend more) := by
  have hlast := h.last hne
  obtain ⟨htake, hdrop⟩ := word_append hlast fun _ => isWordChar_of_isDigit
  have hlast' : (s.spot.rest.dropWhile Text.isDigit).getLast? = some '\n' ∨ Text.Soft more :=
    hlast.imp_left fun hl => by
      obtain ⟨front, hcut⟩ := List.getLast?_eq_some_iff.1 hl
      rw [hcut, (Text.run_append (.inr fun c hc => by cases hc; decide)).2, List.getLast?_concat]
  rw [readNumber_eq, readNumber_eq, show (s.extend more).spot.rest = s.spot.rest ++ more from rfl,
    htake, hdrop, pointed_append hlast']
  split
  · rename_i hp
    have hrest := List.takeWhile_append_dropWhile (p := Text.isDigit) (l := s.spot.rest)
    generalize s.spot.rest.takeWhile Text.isDigit = whole at *
    generalize s.spot.rest.dropWhile Text.isDigit = ds at *
    unfold pointed at hp
    split at hp
    · rename_i d tail
      rw [List.getLast?_cons_cons] at hlast'
      rw [List.cons_append, List.drop_succ_cons, List.drop_zero, List.drop_succ_cons, List.drop_zero,
        (word_append hlast' fun _ => isWordChar_of_isDigit).1]
      refine congrArg Except.ok (push_extend (r := (d :: tail).dropWhile Text.isDigit) ?_ _)
      rw [← hrest, List.append_assoc, List.cons_append, List.takeWhile_append_dropWhile]
    · cases hp
  · exact intToken_extend List.takeWhile_append_dropWhile.symm

theorem readSymbol_extend (h : Seam m s.spot.rest more) (hr : s.spot.rest = c :: rest) (hc : c ≠ '\n') :
    (s.extend more).readSymbol c (rest ++ more) = (s.readSymbol c rest).map (extend more) := by
  have hpair (f : Char → Option (Symbol × List Char)) (hf : ∀ d, f d ≠ none → d = '=') :
      (rest ++ more).head?.bind f = rest.head?.bind f := by
    cases rest with
    | cons d rest => rfl
    | nil =>
      cases more with
      | nil => rfl
      | cons d more =>
        obtain hl | hs := h.ends
        · exact absurd (hl c (by rw [hr]; rfl)) hc
        · exact Decidable.byContradiction fun hne => (hs d rfl).2.2 (hf d hne)
  unfold readSymbol
  rw [hpair]
  · split
    · rename_i symbol taken heq
      obtain ⟨d, hd, hs⟩ := Option.bind_eq_some_iff.1 heq
      obtain ⟨more', rfl⟩ := List.head?_eq_some_iff.1 hd
      obtain ⟨_, -, hs⟩ := Option.map_eq_some_iff.1 hs
      obtain ⟨rfl, rfl⟩ := Prod.mk.inj hs
      exact congrArg Except.ok (push_extend (r := more') hr _)
    · split
      · rename_i symbol _
        change Except.ok { (s.extend more).push (.symbol symbol) [c] with
          brackets := bracketsAfter s.brackets symbol } = _
        rw [push_extend (r := rest) hr]
        rfl
      · rfl
  · intro d hd
    obtain ⟨⟨symbol, taken⟩, hd⟩ := Option.ne_none_iff_exists'.1 hd
    obtain ⟨symbol, hp, -⟩ := Option.map_eq_some_iff.1 hd
    exact (pair?_second hp).1

theorem readString_extend {quote : Char} (hr : s.spot.rest = quote :: rest)
    (h : behind m (.string quote .text false) rest = .code) :
    (s.extend more).readString quote = (s.readString quote).map (extend more) := by
  have hrest : s.spot.next.rest = rest := (Spot.next_spec hr).1
  unfold readString
  rw [show (s.extend more).spot = s.spot.extend more from rfl, Spot.next_extend hr]
  dsimp only
  rw [show (s.spot.next.extend more).rest = s.spot.next.rest ++ more from rfl, hrest,
    Quotes.body_append (i := .text) h more]
  rw [show (s.spot.next.extend more).place = s.spot.next.place from rfl]
  cases hb : Quotes.body quote .text s.spot.next.place rest with
  | ok r =>
    obtain ⟨text, after⟩ := r
    obtain ⟨rfl, -⟩ := Quotes.body_ok hb
    have hpast : (s.spot.next.extend more).past text = (s.spot.next.past text).extend more :=
      Spot.past_extend hrest
    have hnext : ((s.spot.next.past text).extend more).next = (s.spot.next.past text).next.extend more :=
      Spot.next_extend (Spot.past_spec hrest).1
    simp only [Except.map, hpast, hnext]
    rfl
  | error unclosed => cases unclosed <;> rfl

/-! ## Moves -/

omit more in
/-- A slash is not the last character of a text that ends in code. -/
theorem head_append (h : behind m .code (c :: rest) = .code) (hc : c = '/') (more : List Char) :
    (rest ++ more).head? = rest.head? := by
  subst hc
  cases rest with
  | nil => cases h
  | cons d rest => rfl

theorem readNext_extend (h : Seam m s.spot.rest more) (hr : s.spot.rest = c :: rest) :
    (s.extend more).readNext m c (rest ++ more) = (s.readNext m c rest).map (extend more) := by
  have hne : s.spot.rest ≠ [] := by
    rw [hr]
    exact List.cons_ne_nil _ _
  have hcode := h.code
  rw [hr, behind_cons] at hcode
  have hhead (d : Char) : (c = '/' ∧ (rest ++ more).head? = some d) ↔ c = '/' ∧ rest.head? = some d :=
    and_congr_right fun hc => by rw [head_append (hr ▸ h.code) hc]
  unfold readNext
  simp only [hhead]
  split
  · change (if s.brackets = 0 then _ else _) = _
    split
    · rw [push_extend (r := rest) (hr.trans (by simp_all))]
      rfl
    · rw [moveTo_next_extend hr]
      rfl
  split
  · rename_i hc
    obtain ⟨rfl, hs⟩ := hc
    obtain ⟨ds, rfl⟩ := List.head?_eq_some_iff.1 hs
    have hl := Region.mem_of_behind_line hcode
    rw [lineEnd_extend (by rw [hr]; exact List.mem_cons_of_mem _ (List.mem_cons_of_mem _ hl))]
    rfl
  split
  · rename_i hc
    obtain ⟨rfl, hs⟩ := hc
    obtain ⟨ds, rfl⟩ := List.head?_eq_some_iff.1 hs
    exact pastComment_extend hr hcode
  split
  · rename_i hc
    subst hc
    have hl := Region.mem_of_behind_line hcode
    rw [pastHash_extend (by rw [hr]; exact List.mem_cons_of_mem _ hl)]
    rfl
  split
  · rename_i hc
    subst hc
    exact readString_extend hr hcode
  split
  · rename_i hc
    obtain ⟨rfl, hq⟩ := hc
    refine readString_extend (m := m) hr ?_
    rwa [Region.after, Region.ofCode, ScanMode.opensString, hq] at hcode
  split
  · rw [readName_extend h hne]
    rfl
  split
  · exact readNumber_extend h hne
  · exact readSymbol_extend h hr ‹_›

theorem lead_append (h : behind m .code cs = .code) (hne : cs ≠ []) (more : List Char) :
    lead (cs ++ more) = lead cs := by
  obtain ⟨c, rest, rfl⟩ := List.exists_cons_of_ne_nil hne
  by_cases hn : c = '\n'
  · subst hn
    rfl
  by_cases hh : c = '#'
  · subst hh
    rfl
  by_cases hc : c = '/'
  · subst hc
    have hhead := head_append h rfl more
    by_cases hs : rest.head? = some '/'
    · obtain ⟨rest, rfl⟩ := List.head?_eq_some_iff.1 hs
      rfl
    by_cases hb : rest.head? = some '*'
    · obtain ⟨rest, rfl⟩ := List.head?_eq_some_iff.1 hb
      rfl
    rw [List.cons_append, lead_cons (by decide) (by decide) fun _ => ⟨hs, hb⟩,
      lead_cons (by decide) (by decide) fun _ => by rw [hhead]; exact ⟨hs, hb⟩]
  · rw [List.cons_append, lead_cons hn hh (absurd · hc), lead_cons hn hh (absurd · hc)]

theorem readOn_extend (h : Seam m s.spot.rest more) (hne : s.spot.rest ≠ []) :
    (s.extend more).readOn m = (s.readOn m).map fun r => (r.1.extend more, r.2) := by
  obtain ⟨c, rest, hr⟩ := List.exists_cons_of_ne_nil hne
  unfold readOn
  rw [show (s.extend more).spot.rest = s.spot.rest ++ more from rfl, hr, List.cons_append]
  dsimp only
  rw [readNext_extend h hr]
  cases s.readNext m c rest <;> rfl

theorem indentTo_extend (w : Nat) :
    (s.extend more).indentTo w = (s.indentTo w).map (extend more) := by
  unfold indentTo
  dsimp only [extend, Spot.extend]
  split
  · rfl
  split <;> rfl

theorem act_extend {q : Phase} {w : Nat} (h : Seam m s.spot.rest more) (hne : s.spot.rest ≠ []) :
    (s.extend more).act m q w = (s.act m q w).map fun r => (r.1.extend more, r.2) := by
  unfold act
  rw [show (s.extend more).spot.rest = s.spot.rest ++ more from rfl, lead_append h.code hne]
  have hcode := h.code
  split
  · exact readOn_extend h hne
  rcases lead_cases s.spot.rest with ⟨hl, hr⟩ | ⟨ds, hl, hr⟩ | ⟨ds, hl, hr⟩ | ⟨ds, hl, hr⟩ |
    ⟨ds, hl, hr⟩ | hl
  all_goals simp only [hl]
  · exact absurd hr hne
  · rw [moveTo_next_extend hr]
    rfl
  · rw [hr] at hcode
    have hnl := Region.mem_of_behind_line (m := m) hcode
    rw [pastHash_extend (by rw [hr]; exact List.mem_cons_of_mem _ hnl)]
    rfl
  · rw [hr] at hcode
    have hnl := Region.mem_of_behind_line (m := m) hcode
    rw [lineEnd_extend (by rw [hr]; exact List.mem_cons_of_mem _ (List.mem_cons_of_mem _ hnl))]
    rfl
  · rw [hr] at hcode
    rw [pastComment_extend (m := m) hr hcode]
    cases s.pastComment <;> rfl
  · rw [indentTo_extend]
    cases hi : s.indentTo w with
    | error stop => rfl
    | ok u =>
      have hspot : u.spot = s.spot := (adds_indentTo hi).2
      exact readOn_extend (hspot ▸ h) (hspot ▸ hne)

/-- In front of a seam the scanner makes the same move whatever is behind it. -/
theorem move_extend {q : Phase} (h : Seam m s.spot.pastGap.rest more) (hne : s.spot.pastGap.rest ≠ []) :
    (s.extend more).move m q = (s.move m q).map fun r => (r.1.extend more, r.2) := by
  have hgap : (s.extend more).moveTo (s.extend more).spot.pastGap =
      (s.moveTo s.spot.pastGap).extend more := by
    rw [show (s.extend more).spot = s.spot.extend more from rfl, Spot.pastGap_extend hne]
    rfl
  have hwidth : (s.extend more).indentation q = s.indentation q := by
    cases q with
    | fresh => exact congrArg (widthFrom 0) (Spot.gap_append hne)
    | commented | inLine =>
      unfold indentation
      rw [show (s.extend more).spot = s.spot.extend more from rfl, Spot.pastGap_extend hne]
      rfl
  unfold move
  rw [hgap, hwidth]
  exact act_extend h hne

end State

end Scan

end StoryLang
