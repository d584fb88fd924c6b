/-
Texts that differ in one code of one string.

`Interpolates` says that a code of a string is `old` in one text and `new` in
the other. The string may itself stand in a code of a string, and so on. Where
both codes consist of characters that mean nothing between quotes, the string
ends where it ended, and if it can be read as tokens in one text it can in the
other. The tokens are the same but for the string.

In a text without code there is nothing to read. So where a string can start in
a text, there is code on the line of its quote or in front of that line, and the
settings at the start of the text do not depend on what is behind the quote.
-/
import StoryLang.Proofs.Features
import StoryLang.Proofs.Token.Led
import StoryLang.Proofs.Token.Opens

namespace StoryLang

namespace Pieces

/-- A string with a code between two runs of characters. -/
def holding (left source right : List Char) : List Char := left ++ '{' :: (source ++ '}' :: right)

/-- The code is a piece of the string. -/
def Holds (left source right : List Char) : Prop :=
  .code source (left.length + 1) ∈ split (holding left source right)

variable {left source source' right : List Char}

theorem Holds.reworded (h : Holds left source right) (hw : Text.Reworded false source source') :
    Holds left source' right := by
  obtain ⟨ps, qs, qs', -, hs, -⟩ := split_at hw h
  unfold Holds holding
  rw [hs]
  simp

theorem Holds.hasCode (h : Holds left source right) : hasCode (holding left source right) = true :=
  List.any_eq_true.2 ⟨_, h, rfl⟩

theorem reworded_holding (left right : List Char) (hw : Text.Reworded false source source') (b : Bool) :
    Text.Reworded b (holding left source right) (holding left source' right) :=
  (Text.Reworded.refl b left).append fun _ =>
    .same '{' (hw.append fun b => .refl b ('}' :: right))

end Pieces

namespace Scan

open Pieces (holding Holds)

/-- A string can start behind the front, it ends at its quote, and the code is one of its pieces. -/
structure Stands (m : ScanMode) (quote : Char) (front left source right : List Char) : Prop where
  opens : Opens m quote front
  encloses : Encloses quote (holding left source right)
  holds : Holds left source right

/-- A text with a string between quotes. -/
def quoting (front : List Char) (quote : Char) (raw behind : List Char) : List Char :=
  front ++ quote :: (raw ++ quote :: behind)

/-- A string of the first text has the code `old` where the string of the second text has `new`. -/
inductive Interpolates (m : ScanMode) (old new : List Char) : List Char → List Char → Prop where
  | here {quote front left right behind} (stands : Stands m quote front left old right) :
    Interpolates m old new (quoting front quote (holding left old right) behind)
      (quoting front quote (holding left new right) behind)
  /-- The string stands in a code of a string. -/
  | deeper {quote front left source source' right behind}
      (stands : Stands m quote front left source right) (inner : Interpolates m old new source source') :
    Interpolates m old new (quoting front quote (holding left source right) behind)
      (quoting front quote (holding left source' right) behind)

variable {m : ScanMode} {old new text text' : List Char} {quote : Char}
  {front left source source' right behind : List Char}

theorem Encloses.reworded {raw raw' : List Char} (hq : IsQuote m quote) (h : Encloses quote raw)
    (hw : Text.Reworded false raw raw') : Encloses quote raw' :=
  fun p behind => (h p behind).reworded hq.eq hw .text p behind

/-- Whether a string ends there is seen at one place. -/
theorem Encloses.iff_closes {raw : List Char} (hq : IsQuote m quote) :
    Encloses quote raw ↔ Quotes.Closes quote .text .first raw [] :=
  ⟨fun h => h .first [], fun h p behind => h.reworded hq.eq (.refl false raw) .text p behind⟩

theorem stands_iff : Stands m quote front left source right ↔
    ((quote = '"' ∨ quote = '\'' ∧ m.singleQuotes = true) ∧
      (scan m (front ++ [quote, quote])).tokens.toOption.any
        (⟨.string, "", Position.first.behind (Text.dropMark front)⟩ ∈ ·) = true) ∧
    Quotes.body quote .text .first (holding left source right ++ [quote]) =
      .ok (holding left source right, []) ∧
    .code source (left.length + 1) ∈ Pieces.split (holding left source right) := by
  constructor
  · rintro ⟨⟨hq, tokens, hts, hmem⟩, he, hh⟩
    exact ⟨⟨hq, by simpa [hts, Except.toOption] using hmem⟩, (Encloses.iff_closes hq).1 he, hh⟩
  · rintro ⟨⟨hq, hread⟩, he, hh⟩
    obtain ⟨tokens, hts, hmem⟩ := (Option.any_eq_true _ _).1 hread
    exact ⟨⟨hq, tokens, toOption_eq_some.1 hts, by simpa using hmem⟩, (Encloses.iff_closes hq).2 he, hh⟩

instance (m : ScanMode) (quote : Char) (front left source right : List Char) :
    Decidable (Stands m quote front left source right) :=
  decidable_of_iff _ stands_iff.symm

theorem Stands.reworded (h : Stands m quote front left source right)
    (hw : Text.Reworded false source source') : Stands m quote front left source' right where
  opens := h.opens
  encloses := h.encloses.reworded h.opens.quoted (Pieces.reworded_holding left right hw false)
  holds := h.holds.reworded hw

/-- The string is one of the tokens, and the code is one of its pieces. -/
theorem Stands.exists_code (h : Stands m quote front left source right) {tokens : List Token}
    (hts : (scan m (quoting front quote (holding left source right) behind)).tokens = .ok tokens) :
    '\n' ∉ source ∧ ∃ u ∈ tokens, u.kind = .string ∧ ∃ offset,
      .code source offset ∈ Pieces.split u.literal.toList := by
  obtain ⟨p, hmem⟩ := h.opens.mem h.encloses hts
  refine ⟨fun hn => h.encloses.oneLine ?_, _, hmem, rfl, left.length + 1, ?_⟩
  · exact List.mem_append_right _ (List.mem_cons_of_mem _ (List.mem_append_left _ hn))
  · rw [String.toList_ofList]
    exact h.holds

theorem reworded_quoting {raw raw' : List Char} (front behind : List Char) (quote : Char)
    (hw : ∀ b, Text.Reworded b raw raw') :
    Text.Reworded false (quoting front quote raw behind) (quoting front quote raw' behind) :=
  (Text.Reworded.refl false front).append fun _ =>
    .same quote ((hw _).append fun b => .refl b (quote :: behind))

namespace Interpolates

theorem reworded (hw : Text.Reworded false old new) (h : Interpolates m old new text text') :
    Text.Reworded false text text' := by
  induction h with
  | here => exact reworded_quoting _ _ _ (Pieces.reworded_holding _ _ hw)
  | deeper _ _ ih => exact reworded_quoting _ _ _ (Pieces.reworded_holding _ _ ih)

theorem symm (hw : Text.Reworded false old new) (h : Interpolates m old new text text') :
    Interpolates m new old text' text := by
  induction h with
  | here stands => exact .here (stands.reworded hw)
  | deeper stands inner ih => exact .deeper (stands.reworded (inner.reworded hw)) ih

end Interpolates

/-! ## Tokens -/

/-- The codes of two strings: the ones that differ, or texts that differ in them. -/
def Recoded (m : ScanMode) (old new source source' : List Char) : Prop :=
  source = old ∧ source' = new ∨ Interpolates m old new source source'

/-- The tokens are the same but for their columns, and but for one code of a string. -/
inductive Alters (m : ScanMode) (old new : List Char) : Token → Token → Prop where
  | same {kind literal p p'} (line : p'.line = p.line) :
    Alters m old new ⟨kind, literal, p⟩ ⟨kind, literal, p'⟩
  | string {left source source' right p p'} (line : p'.line = p.line)
      (holds : Holds left source right) (codes : Recoded m old new source source') :
    Alters m old new ⟨.string, String.ofList (holding left source right), p⟩
      ⟨.string, String.ofList (holding left source' right), p'⟩

theorem lined_alters (m : ScanMode) (old new : List Char) : Token.Lined (Alters m old new) where
  kind _ _ h := by cases h <;> rfl
  same _ _ _ _ line := .same line

theorem Recoded.reworded (hw : Text.Reworded false old new) (h : Recoded m old new source source') :
    Text.Reworded false source source' := by
  rcases h with ⟨rfl, rfl⟩ | h
  · exact hw
  · exact h.reworded hw

/-- Both texts are read as such tokens if one is. -/
theorem Interpolates.scan_alters {ts : List Token} (hw : Text.Reworded false old new)
    (h : Interpolates m old new text text') (hts : (scan m text).tokens = .ok ts) :
    ∃ ts', (scan m text').tokens = .ok ts' ∧ List.Forall₂ (Alters m old new) ts ts' := by
  have related {quote : Char} {front left source source' right behind : List Char}
      (hs : Stands m quote front left source right) (hc : Recoded m old new source source')
      (hts : (scan m (quoting front quote (holding left source right) behind)).tokens = .ok ts) :
      ∃ ts', (scan m (quoting front quote (holding left source' right) behind)).tokens = .ok ts' ∧
        List.Forall₂ (Alters m old new) ts ts' :=
    hs.opens.scan_related (lined_alters m old new) hs.encloses
      (hs.reworded (hc.reworded hw)).encloses (fun _ _ hl => .string hl hs.holds hc) hts
  cases h with
  | here stands => exact related stands (.inl ⟨rfl, rfl⟩) hts
  | deeper stands inner => exact related stands (.inr inner) hts

end Scan

end StoryLang

/-! ## Texts without code -/

namespace StoryLang

/-- Symbols are no blanks. -/
theorem Symbol.not_mute {c : Char} {cs : List Char} {symbol : Symbol}
    (h : ofText? (String.ofList (c :: cs)) = some symbol) : Text.isMute c = false := by
  have hs := List.find?_some h
  have hall : ∀ s ∈ Symbol.all, s.text.toList.head?.all (!Text.isMute ·) = true := by decide
  have := hall symbol (Symbol.mem_all symbol)
  simp only [decide_eq_true_eq] at hs
  rw [hs, String.toList_ofList] at this
  simpa using this

namespace Text

theorem isMute_of_graphic {c : Char} (hb : isBlank c = false) (hm : c ≠ byteOrderMark) : isMute c = false := by
  simp [isMute, hb, hm]

theorem Quiet.dropWhile {p : Char → Bool} {cs : List Char} (hp : ∀ c, p c = true → c ≠ '/') (h : Quiet cs) :
    Quiet (cs.dropWhile p) := by
  induction h with
  | nil => exact .nil
  | @mute c rest mute others ih =>
    rw [List.dropWhile_cons]
    split
    · exact ih
    · exact .mute mute others
  | comment others =>
    rw [List.dropWhile_cons_of_neg fun hslash => hp _ hslash rfl]
    exact .comment others

/-- Marks in front of a text are no code. -/
theorem Quiet.of_dropMarks {front tail : List Char}
    (h : Quiet (front.dropWhile (· = byteOrderMark) ++ tail)) : Quiet (dropMark front ++ tail) := by
  cases front with
  | nil => exact h
  | cons c front =>
    simp only [dropMark]
    split
    · rename_i hc
      rw [List.dropWhile_cons_of_pos (by simpa using hc)] at h
      rw [← List.takeWhile_append_dropWhile (p := (· = byteOrderMark)) (l := front), List.append_assoc]
      refine .mutes (fun d hd => ?_) h
      obtain rfl : d = byteOrderMark := by simpa using List.mem_takeWhile_imp hd
      decide
    · rename_i hc
      rwa [List.dropWhile_cons_of_neg (by simpa using hc)] at h

end Text

namespace Scan

namespace State

variable {m : ScanMode} {s : State} {c : Char} {rest : List Char} {fuel : Nat} {p : State × Bool}

/-- No token starts with a blank. -/
theorem readNext_mute (hc : Text.isMute c = true) (hn : c ≠ '\n') (u : State) :
    s.readNext m c rest ≠ .ok u := by
  have ne {d : Char} (hd : Text.isMute d = false) : c ≠ d := by
    rintro rfl
    simp [hc] at hd
  have hword : Grammar.isWordStart c = false := by
    refine Bool.eq_false_iff.2 fun hword => ?_
    have hmute := Text.isMute_of_graphic (Text.isBlank_word hword) (by rintro rfl; revert hword; decide)
    simp [hc] at hmute
  have hdigit : Text.isDigit c = false := by
    refine Bool.eq_false_iff.2 fun hdigit => ?_
    have hmute := Text.isMute_of_graphic (Text.isBlank_digit hdigit) (by rintro rfl; revert hdigit; decide)
    simp [hc] at hmute
  have hsymbol (cs : List Char) : Symbol.ofText? (String.ofList (c :: cs)) = none := by
    refine Option.eq_none_iff_forall_ne_some.2 fun symbol h => ?_
    have hmute := Symbol.not_mute h
    simp [hc] at hmute
  have hpair : (rest.head?.bind fun d => (pair? c d).map fun symbol => (symbol, [c, d])) = none := by
    cases rest with
    | nil => rfl
    | cons d rest => simp only [List.head?_cons, Option.bind_some, pair?, hsymbol, Option.map_none]
  have hsingle : single? c = none := by
    simp only [single?, hsymbol]
    simp [ne (d := '(') (by decide), ne (d := '[') (by decide), ne (d := '{') (by decide),
      ne (d := ')') (by decide), ne (d := ']') (by decide), ne (d := '}') (by decide),
      ne (d := ',') (by decide), ne (d := ':') (by decide), ne (d := '.') (by decide)]
  unfold readNext readSymbol
  rw [hpair, hsingle]
  simp [hn, ne (d := '/') (by decide), ne (d := '#') (by decide), ne (d := '"') (by decide),
    ne (d := '\'') (by decide), hword, hdigit, stop]

/-- In a text without code no line starts, or one with a character that no token starts with. -/
theorem quiet_startLine (h : Text.Quiet s.spot.rest) (hs : s.startLine fuel = .ok p) : p.2 = false ∨
    ∃ c rest, p.1.spot.pastGap.rest = c :: rest ∧ Text.isMute c = true ∧ c ≠ '\n' := by
  induction fuel generalizing s with
  | zero =>
    obtain rfl := Except.ok.inj hs
    exact .inl rfl
  | succ fuel ih =>
    have hgap : Text.Quiet s.spot.pastGap.rest := by
      rw [Spot.pastGap, Spot.rest_pastWhile]
      refine h.dropWhile fun c hc => ?_
      rintro rfl
      revert hc
      decide
    rw [startLine_eq] at hs
    generalize hrest : s.spot.pastGap.rest = rest at hs hgap
    cases hgap with
    | nil =>
      obtain rfl := Except.ok.inj hs
      exact .inl rfl
    | @mute c rest mute others =>
      by_cases hn : c = '\n'
      · subst hn
        refine ih ?_ hs
        rw [moveTo, (Spot.next_spec hrest).1]
        exact others
      · have hlead : lead (c :: rest) = .code :=
          lead_cons hn (by rintro rfl; revert mute; decide)
            (by rintro rfl; exact absurd mute (by decide))
        rw [hlead] at hs
        obtain ⟨-, hspot, -⟩ := adds_indentTo_map hs
        refine .inr ⟨c, rest, ?_, mute, hn⟩
        rw [hspot, moveTo, rest_pastGap_pastGap, hrest]
    | comment others =>
      refine ih ?_ hs
      rw [moveTo, Spot.lineEnd, Spot.rest_pastWhile, hrest,
        List.dropWhile_cons_of_pos (by decide), List.dropWhile_cons_of_pos (by decide)]
      exact others

end State

/-- No code is read from a text without code. -/
theorem quiet_scan {m : ScanMode} {text : List Char} {tokens : List Token}
    (h : Text.Quiet (Text.dropMark text)) (hts : (scan m text).tokens = .ok tokens) :
    ∀ t ∈ tokens, t.isCode = false := by
  obtain ⟨r, hs, hr⟩ := State.run_ok hts
  obtain ⟨q, hs, hstart⟩ := State.step_ok hs
  obtain ⟨-, hq⟩ := hstart.resolve_right (by simp [State.start])
  obtain ⟨⟨-, hnone⟩, -⟩ := State.adds_startLine (Nat.lt_succ_of_le (Text.length_dropMark text)) hq
  rcases State.onLine_ok hs with ⟨-, rfl⟩ | ⟨hmore, hnext⟩
  · obtain ⟨-, rfl⟩ := hr.resolve_left (by simp)
    have hnocode : q.1.finish.filter Token.isCode = [] := by
      rw [State.filter_finish, hnone]
      rfl
    intro t ht
    simpa using List.filter_eq_nil_iff.1 hnocode t ht
  · -- what comes first on the line is not read
    rcases State.quiet_startLine (s := .start text) h hq with hend | ⟨c, rest, hrest, hmute, hn⟩
    · simp [hmore] at hend
    · rcases hnext with ⟨hnil, -⟩ | ⟨d, others, u, hd, hread, -⟩
      · simp [hrest] at hnil
      · obtain ⟨rfl, rfl⟩ := List.cons.inj (hrest.symm.trans hd)
        exact absurd hread (State.readNext_mute hmute hn u)

variable {m : ScanMode} {quote : Char} {front : List Char}

/-- Where a string can start, there is code. -/
theorem Opens.not_quiet (h : Opens m quote front) : ¬ Text.Quiet (Text.dropMark front ++ [quote, quote]) := by
  obtain ⟨hq, tokens, hts, hmem⟩ := h
  intro hquiet
  have hcode := quiet_scan (by rwa [dropMark_front hq]) hts _ hmem
  simp [Token.isCode, TokenKind.isLayout] at hcode

theorem dropMarks_front (h : IsQuote m quote) (tail : List Char) :
    (front ++ quote :: tail).dropWhile (· = Text.byteOrderMark) =
      front.dropWhile (· = Text.byteOrderMark) ++ quote :: tail := by
  induction front with
  | nil => exact List.dropWhile_cons_of_neg (by simpa using h.ne_mark)
  | cons c front ih =>
    rw [List.cons_append, List.dropWhile_cons, List.dropWhile_cons]
    split
    · exact ih
    · rfl

/-- The settings at the start of a text do not depend on what is in a string or behind it. -/
theorem Opens.applyHeader (h : Opens m quote front) (tail tail' : List Char) (f : Features) :
    f.applyHeader (front ++ quote :: tail') = f.applyHeader (front ++ quote :: tail) := by
  unfold Features.applyHeader
  rw [dropMarks_front h.quoted, dropMarks_front h.quoted]
  refine Features.applyLines_front ?_ ?_ (fun hquiet => h.not_quiet hquiet.of_dropMarks) tail tail' f
  · rcases h.quoted with rfl | ⟨rfl, -⟩ <;> decide
  · rcases h.quoted with rfl | ⟨rfl, -⟩ <;> decide

/-- Nor on a code in it. -/
theorem Interpolates.applyHeader {old new text text' : List Char} (h : Interpolates m old new text text')
    (f : Features) : f.applyHeader text' = f.applyHeader text := by
  cases h with
  | here stands | deeper stands => exact stands.opens.applyHeader _ _ f

end Scan

end StoryLang
