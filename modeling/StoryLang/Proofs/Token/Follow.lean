/-
The tokens of a text come one after the other.

Every token but those of the layout takes up some columns of its line, the
next token starts behind it, and what comes after the end of a line is on a
later line. The scanner keeps this for the tokens it has read so far, together
with what is promised of each of them.
-/
import StoryLang.Proofs.Grammar.Declared
import StoryLang.Proofs.Token.Literal
import StoryLang.Proofs.Token.Steps
import StoryLang.Tree.Cursor

namespace StoryLang

namespace Token

/-- How many columns a token takes up. -/
def width (t : Token) : Nat :=
  if t.kind = .string then t.literal.length + 2 else t.literal.length

/-- The token has ended at a place, and so has its line if it is the end of one. -/
structure Before (t : Token) (p : Position) : Prop where
  line : t.line ≤ p.line
  newline : t.kind = .newline → t.line < p.line
  columns : t.kind.isLayout = false → t.line < p.line ∨ t.column + t.width ≤ p.column

/-- Another token comes after this one. -/
structure Follows (t u : Token) : Prop where
  line : t.line ≤ u.line
  before : u.kind.isLayout = false → t.Before u.position

/-- What is promised of a token wherever it stands. -/
structure Valid (t : Token) : Prop where
  sound : t.Sound
  place : 1 ≤ t.line ∧ 1 ≤ t.column
  wide : t.kind.isLayout = false → 1 ≤ t.width
  /-- It starts with what can be seen. -/
  visible : t.kind.isLayout = false → t.kind ≠ .string →
    ∃ c ∈ t.literal.toList.head?, Text.isBlank c = false

/-- Between its quotes stands what was read from there. -/
def QuotedIn (text : List Char) (t : Token) : Prop :=
  ∃ front quote rest after, text = front ++ quote :: rest ∧
    t.position = Position.first.behind front ∧ (quote = '"' ∨ quote = '\'') ∧
    Quotes.body quote .text (t.position.after quote) rest = .ok (t.literal.toList, after)

theorem Before.le {t : Token} {p q : Position} (h : t.Before p) (hpq : p ≤ q) : t.Before q := by
  have hl := Position.line_le hpq
  rw [Position.le_iff] at hpq
  refine ⟨Nat.le_trans h.line hl, fun hk => Nat.lt_of_lt_of_le (h.newline hk) hl, fun hk => ?_⟩
  have hline := h.line
  have hcolumns := h.columns hk
  omega

end Token

namespace Text

theorem isBlank_graphic {c : Char} (h : 33 ≤ c.toNat ∧ c.toNat ≤ 126) : isBlank c = false := by
  unfold isBlank
  generalize c.toNat = n at h
  simp only [Bool.or_eq_false_iff, Bool.and_eq_false_iff, decide_eq_false_iff_not, beq_eq_false_iff_ne]
  omega

theorem isBlank_word {c : Char} (hc : Grammar.isWordStart c = true) : isBlank c = false := by
  simp only [Grammar.isWordStart, Bool.or_eq_true, Bool.and_eq_true, decide_eq_true_eq,
    Char.le_def, UInt32.le_iff_toNat_le, beq_iff_eq] at hc
  refine isBlank_graphic ?_
  rcases hc with (hc | hc) | rfl
  · exact ⟨Nat.le_trans (by decide) hc.1, Nat.le_trans hc.2 (by decide)⟩
  · exact ⟨Nat.le_trans (by decide) hc.1, Nat.le_trans hc.2 (by decide)⟩
  · decide

theorem isBlank_digit {c : Char} (hc : isDigit c = true) : isBlank c = false := by
  simp only [isDigit, Bool.and_eq_true, decide_eq_true_eq, Char.le_def, UInt32.le_iff_toNat_le] at hc
  exact isBlank_graphic ⟨Nat.le_trans (by decide) hc.1, Nat.le_trans hc.2 (by decide)⟩

end Text

/-- Symbols can be seen. -/
theorem Symbol.visible {c : Char} {cs : List Char} {symbol : Symbol}
    (h : ofText? (String.ofList (c :: cs)) = some symbol) : Text.isBlank c = false := by
  have hs := List.find?_some h
  have hall : ∀ s ∈ Symbol.all, s.text.toList.head?.all (!Text.isBlank ·) = true := by decide
  have := hall symbol (Symbol.mem_all symbol)
  simp only [decide_eq_true_eq] at hs
  rw [hs, String.toList_ofList] at this
  simpa using this

theorem Symbol.not_newline {c d : Char} {symbol : Symbol}
    (h : Scan.State.pair? c d = some symbol) : '\n' ∉ [c, d] := by
  have hs := List.find?_some h
  have hall : ∀ s ∈ Symbol.all, '\n' ∉ s.text.toList := by decide
  have := hall symbol (Symbol.mem_all symbol)
  simp only [decide_eq_true_eq] at hs
  rwa [hs, String.toList_ofList] at this

namespace Scan

/-- The tokens read so far, newest first, when reading stands at a spot of the text. -/
structure Good (text : List Char) (spot : Spot) (tokens : List Token) : Prop where
  reach : (Spot.start text).Reaches spot
  each : ∀ t ∈ tokens, t.Valid ∧ t.Before spot.place
  order : tokens.Pairwise fun u t => t.Follows u
  strings : ∀ t ∈ tokens, t.kind = .string → t.QuotedIn text

namespace Good

variable {text : List Char} {spot spot' : Spot} {tokens : List Token}

theorem start (text : List Char) : Good text (Spot.start text) [] :=
  ⟨.refl _, by simp, .nil, by simp⟩

theorem move (h : Good text spot tokens) (hr : spot.Reaches spot') : Good text spot' tokens :=
  ⟨h.reach.trans hr, fun t ht => ⟨(h.each t ht).1, (h.each t ht).2.le hr.le⟩, h.order, h.strings⟩

/-- A token is read where reading stands. -/
theorem add {t : Token} (h : Good text spot tokens) (hr : spot.Reaches spot')
    (hp : t.position = spot.place) (hv : t.Valid) (hb : t.Before spot'.place)
    (hs : t.kind = .string → t.QuotedIn text) : Good text spot' (t :: tokens) := by
  refine ⟨h.reach.trans hr, ?_, List.pairwise_cons.2 ⟨fun u hu => ?_, h.order⟩,
    List.forall_mem_cons.2 ⟨hs, h.strings⟩⟩
  · exact List.forall_mem_cons.2 ⟨⟨hv, hb⟩, (h.move hr).each⟩
  · have hu := (h.each u hu).2
    exact ⟨by simpa [Token.line, hp] using hu.line, fun _ => hp ▸ hu⟩

theorem valid_layout (h : Good text spot tokens) {kind : TokenKind} (hk : kind.isLayout = true)
    (literal : String) : Token.Valid ⟨kind, literal, spot.place⟩ := by
  refine ⟨⟨?_, ?_, ?_, ?_⟩, Spot.reaches_one h.reach, ?_, ?_⟩ <;> rintro e <;>
    simp_all [TokenKind.isLayout]

/-- A mark of the layout takes no text. -/
theorem mark (h : Good text spot tokens) {kind : TokenKind} (hk : kind.isLayout = true)
    (hn : kind ≠ .newline) (literal : String) :
    Good text spot (⟨kind, literal, spot.place⟩ :: tokens) :=
  h.add (.refl _) rfl (h.valid_layout hk literal)
    ⟨Nat.le_refl _, fun e => absurd e hn, fun e => by simp [hk] at e⟩
    (by rintro rfl; simp [TokenKind.isLayout] at hk)

/-- Some characters of the line are read as a token. -/
theorem push (h : Good text spot tokens) {kind : TokenKind} {taken rest : List Char}
    (hr : spot.rest = taken ++ rest) (hl : '\n' ∉ taken)
    (hv : ∃ c ∈ taken.head?, Text.isBlank c = false) (hk : kind.isLayout = false ∧ kind ≠ .string)
    (hs : Token.Sound ⟨kind, String.ofList taken, spot.place⟩) :
    Good text (spot.past taken) (⟨kind, String.ofList taken, spot.place⟩ :: tokens) := by
  have hw : Token.width ⟨kind, String.ofList taken, spot.place⟩ = taken.length := by
    simp [Token.width, hk.2]
  refine h.add (spot.reaches_past hr) rfl ⟨hs, Spot.reaches_one h.reach, fun _ => ?_, fun _ _ => ?_⟩ ?_
    fun e => absurd e hk.2
  · obtain ⟨c, hc, -⟩ := hv
    exact hw ▸ List.length_pos_of_mem (List.mem_of_mem_head? hc)
  · simpa using hv
  · rw [(Spot.past_spec hr).2, Position.behind_line hl]
    refine ⟨Nat.le_refl _, ?_, fun _ => .inr ?_⟩
    · rintro rfl
      simp [TokenKind.isLayout] at hk
    · rw [hw]
      exact Nat.le_refl _

end Good

namespace State

variable {text : List Char} {s s' : State} {m : ScanMode}

/-- The invariant of the scanner's state. -/
abbrev Keeps (text : List Char) (s : State) : Prop := Good text s.spot s.tokens

theorem keeps_moveTo {spot : Spot} (h : s.Keeps text) (hr : s.spot.Reaches spot) :
    (s.moveTo spot).Keeps text :=
  Good.move h hr

theorem Skips.keeps (h : s.Skips s') (hs : s.Keeps text) : s'.Keeps text := by
  rw [Keeps, h.same.tokens]
  exact Good.move hs h.reach

/-! ## Layout -/

theorem keeps_closeWider {w : Nat} {spot : Spot} {indents : List Nat} {tokens : List Token}
    (h : Good text spot tokens) : Good text spot (closeWider w spot.place indents tokens).2 := by
  induction indents generalizing tokens with
  | nil => exact h
  | cons top indents ih =>
    unfold closeWider
    split
    · exact ih (h.mark rfl (by simp) "")
    · exact h

theorem keeps_indentTo {w : Nat} (h : s.Keeps text) (hs : s.indentTo w = .ok s') :
    s'.Keeps text := by
  rcases indentTo_ok hs with rfl | rfl
  · exact Good.mark h rfl (by simp) ""
  · exact keeps_closeWider h

theorem keeps_startLine {fuel : Nat} {p : State × Bool} (h : s.Keeps text)
    (hs : s.startLine fuel = .ok p) : p.1.Keeps text := by
  obtain ⟨u, hu, rfl | ⟨w, t, -, ht, rfl⟩⟩ := startLine_ok hs
  · exact hu.keeps h
  · exact keeps_indentTo (hu.keeps h) ht

/-! ## Tokens of a line -/

theorem not_newline_of {p : Char → Bool} {cs : List Char} (h : ∀ c ∈ cs, p c = true)
    (hp : p '\n' = false) : '\n' ∉ cs :=
  fun hm => by simp [h _ hm] at hp

theorem mem_takeWhile {p : Char → Bool} {cs : List Char} {c : Char} (h : c ∈ cs.takeWhile p) :
    p c = true :=
  List.all_eq_true.1 List.all_takeWhile c h

theorem keeps_readString {quote : Char} {rest : List Char} (h : s.Keeps text)
    (hq : s.spot.rest = quote :: rest) (hquote : quote = '"' ∨ quote = '\'')
    (hs : s.readString quote = .ok s') : s'.Keeps text := by
  obtain ⟨hrest, hplace⟩ := Spot.next_spec hq
  have hn : quote ≠ '\n' := by rintro rfl; simp at hquote
  unfold readString at hs
  dsimp only at hs
  split at hs
  · rename_i body after hb
    obtain rfl := Except.ok.inj hs
    obtain ⟨hr, hl⟩ := Quotes.body_ok hb
    obtain ⟨hr', hp'⟩ := Spot.past_spec hr
    have hreach : s.spot.Reaches (s.spot.next.past body).next :=
      (s.spot.reaches_next.trans (Spot.reaches_past _ hr)).trans (Spot.reaches_next _)
    refine Good.add h hreach rfl
      ⟨⟨by simp, by simp, by simp, ?_⟩, Spot.reaches_one h.reach, ?_, by simp⟩ ?_ ?_
    · simpa using hl
    · simp [Token.width]
    · have hplace' : (s.spot.next.past body).next.place =
          ⟨s.spot.place.line, s.spot.place.column + body.length + 2⟩ := by
        rw [(Spot.next_spec hr').2, hp', hplace, Position.behind_line hl]
        simp only [Position.after, hn, if_false, Position.mk.injEq, true_and]
        omega
      refine ⟨?_, by simp, fun _ => .inr ?_⟩ <;> rw [hplace']
      · exact Nat.le_refl _
      · simp [Token.width, Token.column, Nat.add_assoc]
    · obtain ⟨front, hfront, hp⟩ := h.reach
      refine fun _ => ⟨front, quote, rest, after, by rw [← hq]; exact hfront, hp, hquote, ?_⟩
      rw [← hrest, ← hplace, String.toList_ofList]
      exact hb
  · simp [stop] at hs
  · simp [stop] at hs

theorem keeps_readName {g : Grammar} {c : Char} {rest : List Char} (h : s.Keeps text)
    (hc : s.spot.rest = c :: rest) (hw : Grammar.isWordStart c = true) :
    (s.readName g).Keeps text := by
  have hword : ∀ d ∈ s.spot.rest.takeWhile Grammar.isWordChar, Grammar.isWordChar d = true :=
    fun d => mem_takeWhile
  have hvisible : ∃ c ∈ (s.spot.rest.takeWhile Grammar.isWordChar).head?, Text.isBlank c = false :=
    ⟨c, by simp [hc, Grammar.isWordChar, hw], Text.isBlank_word hw⟩
  unfold readName
  dsimp only
  refine h.push (List.takeWhile_append_dropWhile).symm (not_newline_of hword (by decide)) hvisible ?_ ?_
  · split <;> simp
  · refine ⟨?_, ?_, fun _ => isIssuedName_of_word hword, ?_⟩ <;> dsimp only <;> split <;> simp

theorem visible_digits {cs : List Char} (hd : ∀ c ∈ cs, Text.isDigit c = true) (hne : cs ≠ []) :
    ∃ c ∈ cs.head?, Text.isBlank c = false := by
  obtain ⟨c, cs, rfl⟩ := List.exists_cons_of_ne_nil hne
  exact ⟨c, rfl, Text.isBlank_digit (hd c (by simp))⟩

theorem keeps_intToken {whole more : List Char} (h : s.Keeps text)
    (hr : s.spot.rest = whole ++ more) (hd : ∀ c ∈ whole, Text.isDigit c = true) (hne : whole ≠ [])
    (hs : readNumber.intToken s whole = .ok s') : s'.Keeps text := by
  unfold readNumber.intToken at hs
  split at hs
  · rename_i hv
    obtain rfl := Except.ok.inj hs
    refine h.push hr (not_newline_of hd (by decide)) (visible_digits hd hne) (by simp)
      ⟨fun _ => ?_, by simp, by simp, by simp⟩
    simpa using Text.signed64?_of_natural hd hv
  · simp [stop] at hs

theorem keeps_readNumber {c : Char} {rest : List Char} (h : s.Keeps text)
    (hc : s.spot.rest = c :: rest) (hd : Text.isDigit c = true) (hs : s.readNumber = .ok s') :
    s'.Keeps text := by
  have hwhole : ∀ d ∈ s.spot.rest.takeWhile Text.isDigit, Text.isDigit d = true :=
    fun d => mem_takeWhile
  have hne : s.spot.rest.takeWhile Text.isDigit ≠ [] := by simp [hc, hd]
  have hsplit := (List.takeWhile_append_dropWhile (p := Text.isDigit) (l := s.spot.rest)).symm
  unfold readNumber at hs
  dsimp only at hs
  split at hs
  · rename_i d more hrest
    split at hs
    · obtain rfl := Except.ok.inj hs
      have hfraction : ∀ e ∈ (d :: more).takeWhile Text.isDigit, Text.isDigit e = true :=
        fun e => mem_takeWhile
      have hr : s.spot.rest = (s.spot.rest.takeWhile Text.isDigit ++
          '.' :: (d :: more).takeWhile Text.isDigit) ++ (d :: more).dropWhile Text.isDigit := by
        rw [List.append_assoc, List.cons_append, List.takeWhile_append_dropWhile, ← hrest]
        exact hsplit
      obtain ⟨e, he, hblank⟩ := visible_digits hwhole hne
      refine h.push hr ?_ ⟨e, by simp [Option.mem_def.1 he], hblank⟩ (by simp)
        ⟨by simp, fun _ => ?_, by simp, by simp⟩
      · simp only [List.mem_append, List.mem_cons, not_or]
        exact ⟨not_newline_of hwhole (by decide), by decide, not_newline_of hfraction (by decide)⟩
      · simpa using Binary64.literal?_isSome hwhole hfraction hne
    · exact keeps_intToken h hsplit hwhole hne hs
  · exact keeps_intToken h hsplit hwhole hne hs

theorem visible_single {c : Char} {symbol : Symbol} (h : single? c = some symbol) :
    Text.isBlank c = false := by
  unfold single? at h
  repeat' split at h
  all_goals first
    | exact Symbol.visible h
    | subst c; decide

theorem keeps_readSymbol {c : Char} {rest : List Char} (h : s.Keeps text)
    (hc : s.spot.rest = c :: rest) (hn : c ≠ '\n') (hs : s.readSymbol c rest = .ok s') :
    s'.Keeps text := by
  unfold readSymbol at hs
  split at hs
  · rename_i symbol taken hpair
    obtain rfl := Except.ok.inj hs
    simp only [Option.bind_eq_some_iff, Option.map_eq_some_iff, Prod.mk.injEq] at hpair
    obtain ⟨d, hd, symbol, hp, rfl, rfl⟩ := hpair
    obtain ⟨more, rfl⟩ : ∃ more, rest = d :: more := by
      cases rest with
      | nil => simp at hd
      | cons e more => exact ⟨more, by simpa using hd⟩
    exact @Good.push _ _ _ h _ [c, d] more hc
      (by simpa using Symbol.not_newline hp) ⟨c, rfl, Symbol.visible hp⟩ (by simp)
      ⟨by simp, by simp, by simp, by simp⟩
  · split at hs
    · rename_i hsingle
      obtain rfl := Except.ok.inj hs
      exact @Good.push _ _ _ h _ [c] _ hc (by simpa using fun e => hn e.symm)
        ⟨c, rfl, visible_single hsingle⟩ (by simp) ⟨by simp, by simp, by simp, by simp⟩
    · simp [stop] at hs

theorem keeps_readNext {c : Char} {rest : List Char} (h : s.Keeps text)
    (hc : s.spot.rest = c :: rest) (hs : s.readNext m c rest = .ok s') : s'.Keeps text := by
  unfold readNext at hs
  split at hs
  · rename_i hn
    split at hs
    · obtain rfl := Except.ok.inj hs
      subst hn
      have hc : s.spot.rest = ['\n'] ++ rest := hc
      have hp := Spot.past_spec hc
      refine Good.add h (Spot.reaches_past _ hc) rfl
        (h.valid_layout rfl _) ⟨?_, fun _ => ?_, by simp [TokenKind.isLayout]⟩ (by simp)
      · exact Position.line_le (Spot.reaches_past _ hc).le
      · rw [show (s.push .newline ['\n']).spot.place = _ from hp.2]
        exact Nat.lt_succ_self _
    · obtain rfl := Except.ok.inj hs
      exact keeps_moveTo h (Spot.reaches_next _)
  rename_i hn
  split at hs
  · obtain rfl := Except.ok.inj hs
    exact keeps_moveTo h (Spot.reaches_lineEnd _)
  split at hs
  · exact (Skips.pastComment hs).keeps h
  split at hs
  · obtain rfl := Except.ok.inj hs
    exact (Skips.pastHash s).keeps h
  split at hs
  · rename_i hq
    exact keeps_readString h (hq ▸ hc) (.inl rfl) hs
  split at hs
  · rename_i hq
    exact keeps_readString h (hq.1 ▸ hc) (.inr rfl) hs
  split at hs
  · rename_i hw
    obtain rfl := Except.ok.inj hs
    exact keeps_readName h hc hw
  split at hs
  · rename_i hd
    exact keeps_readNumber h hc hd hs
  · exact keeps_readSymbol h hc hn hs

theorem keeps_step {fuel : Nat} {p : State × Bool} (h : s.Keeps text)
    (hs : s.step m fuel = .ok p) : p.1.Keeps text := by
  obtain ⟨q, hnext, hstart⟩ := step_ok hs
  have hq : q.1.Keeps text := by
    rcases hstart with ⟨-, hstart⟩ | ⟨-, rfl⟩
    · exact keeps_startLine h hstart
    · exact h
  have hgap : (q.1.moveTo q.1.spot.pastGap).Keeps text := keeps_moveTo hq q.1.spot.reaches_pastGap
  rcases onLine_ok hnext with ⟨-, rfl⟩ | ⟨-, ⟨-, rfl⟩ | ⟨c, rest, s', hr, hn, rfl⟩⟩
  · exact hq
  · exact hgap
  · exact keeps_readNext hgap hr hn

/-! ## The end of the text -/

theorem finish_eq (s : State) : ∃ marks, s.finish = s.tokens.reverse ++ (marks ++
    [⟨.eof, "", s.spot.place⟩]) ∧
      ∀ t ∈ marks, t.kind.isLayout = true ∧ t.position = s.spot.place := by
  unfold finish
  dsimp only
  rw [List.append_assoc, List.append_assoc, ← List.append_assoc _ _ [_]]
  refine ⟨_, rfl, ?_⟩
  simp only [List.mem_append, List.mem_map]
  rintro t (ht | ⟨_, -, rfl⟩)
  · split at ht
    · simp at ht
    · split at ht
      · simp at ht
      · obtain rfl := List.mem_singleton.1 ht
        exact ⟨rfl, rfl⟩
  · exact ⟨rfl, rfl⟩

end State

end Scan

/-- What is promised of all tokens of a text together. -/
structure Scans (text : List Char) (tokens : List Token) : Prop where
  order : tokens.Pairwise Token.Follows
  valid : ∀ t ∈ tokens, t.Valid
  strings : ∀ t ∈ tokens, t.kind = .string → t.QuotedIn text
  /-- Reading went as far as the last token. -/
  reach : ∃ spot, (Spot.start text).Reaches spot ∧
    ∀ t ∈ tokens, t.kind.isLayout = false → t.Before spot.place
  ended : ∃ front last, tokens = front ++ [last] ∧ last.kind = .eof

namespace Scan

variable {text : List Char} {s : State} {m : ScanMode}

theorem State.scans_finish (h : s.Keeps text) : Scans text s.finish := by
  obtain ⟨marks, hf, hm⟩ := s.finish_eq
  rw [hf]
  have hm' : ∀ t ∈ marks ++ [⟨.eof, "", s.spot.place⟩],
      t.kind.isLayout = true ∧ t.position = s.spot.place := by
    simpa [or_imp, forall_and, TokenKind.isLayout] using forall_and.1 fun t => forall_and.1 (hm t)
  have hlayout : ∀ {t u : Token}, t.line ≤ u.line → u.kind.isLayout = true → t.Follows u :=
    fun hl hu => ⟨hl, fun hn => by simp [hu] at hn⟩
  refine ⟨?_, ?_, ?_, ⟨s.spot, h.reach, ?_⟩, ⟨_, _, (List.append_assoc _ _ _).symm, rfl⟩⟩
  · refine List.pairwise_append.2 ⟨List.pairwise_reverse.2 h.order, ?_, ?_⟩
    · refine List.pairwise_of_forall_mem_list fun t ht u hu => ?_
      exact hlayout (by simp [Token.line, (hm' t ht).2, (hm' u hu).2]) (hm' u hu).1
    · intro t ht u hu
      have hb := (h.each t (List.mem_reverse.1 ht)).2
      exact hlayout (by simpa [Token.line, (hm' u hu).2] using hb.line) (hm' u hu).1
  · intro t ht
    rcases List.mem_append.1 ht with ht | ht
    · exact (h.each t (List.mem_reverse.1 ht)).1
    · have := h.valid_layout (hm' t ht).1 t.literal
      rwa [← (hm' t ht).2] at this
  · intro t ht hk
    rcases List.mem_append.1 ht with ht | ht
    · exact h.strings t (List.mem_reverse.1 ht) hk
    · exact absurd (hm' t ht).1 (by simp [hk, TokenKind.isLayout])
  · intro t ht hk
    rcases List.mem_append.1 ht with ht | ht
    · exact (h.each t (List.mem_reverse.1 ht)).2
    · simp [(hm' t ht).1] at hk

theorem State.scans_run {tokens : List Token} {n : Nat} (h : s.Keeps text)
    (hr : (s.run m n).tokens = .ok tokens) : Scans text tokens := by
  obtain ⟨u, hu, rfl⟩ := run_keeps keeps_step h hr
  exact u.scans_finish hu

end Scan

/-- What is promised of the tokens of a text. -/
theorem scan_ok {m : ScanMode} {text : List Char} {tokens : List Token}
    (h : (scan m text).tokens = .ok tokens) : Scans (Text.dropMark text) tokens :=
  Scan.State.scans_run (Scan.Good.start _) h

namespace Scans

variable {text : List Char} {tokens : List Token}

/-- In a text of one line every token has its columns on it. -/
theorem columns (h : Scans text tokens) (hl : '\n' ∉ text) {t : Token} (ht : t ∈ tokens)
    (hk : t.kind.isLayout = false) : t.line = 1 ∧ t.column + t.width ≤ 1 + text.length := by
  obtain ⟨spot, hr, hb⟩ := h.reach
  obtain ⟨hline, hcolumn⟩ := Spot.reaches_line hr hl
  have hplace := (h.valid t ht).place
  have hb := hb t ht hk
  have hle := hb.line
  have hcol := hb.columns hk
  omega

theorem missingEnd (h : Scans text tokens) : Cursor.missingEnd tokens = [] := by
  obtain ⟨front, last, rfl, hk⟩ := h.ended
  simp [Cursor.missingEnd, hk]

end Scans

end StoryLang
