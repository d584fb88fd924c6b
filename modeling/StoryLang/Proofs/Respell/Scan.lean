/-
Scanning a text whose keywords are spelled anew.

The tokens of such a text are the tokens of the text it was, one by one: on the
same lines, of the same kinds, and with the same literals but for keywords and
for the code in strings (`scan_respelt`). Both scanners stop at the same places;
only the columns they count differ, and those count for nothing behind the
first token of a line.
-/
import StoryLang.Proofs.Respell.Text
import StoryLang.Proofs.Token.Layout
import StoryLang.Proofs.Token.Led

namespace StoryLang

namespace Respell

/-- A mode that reads the new words as the keywords. -/
structure Respelling (m : ScanMode) (spell : Keyword → String) (m' : ScanMode) : Prop where
  words : Words spell
  grammar : m.grammar.Respells spell m'.grammar
  quotes : m'.singleQuotes = m.singleQuotes

/-- A text has a name in it, be it in the code of a string. -/
inductive HasName (m : ScanMode) : List Char → String → Prop where
  | name {text tokens t} (scanned : (scan m text).tokens = .ok tokens) (mem : t ∈ tokens)
      (kind : t.kind = .name) : HasName m text t.literal
  | code {text tokens t source offset w} (scanned : (scan m text).tokens = .ok tokens)
      (mem : t ∈ tokens) (kind : t.kind = .string)
      (piece : .code source offset ∈ Pieces.split t.literal.toList) (named : HasName m source w) :
    HasName m text w

/-- No name in a text is one of the new words. -/
def Free (m m' : ScanMode) (text : List Char) : Prop :=
  ∀ w, HasName m text w → m'.grammar.keyword? w = none

/-- The same of the names in a token. -/
structure FreeToken (m m' : ScanMode) (t : Token) : Prop where
  name : t.kind = .name → m'.grammar.keyword? t.literal = none
  code : t.kind = .string → ∀ source offset, .code source offset ∈ Pieces.split t.literal.toList →
    Free m m' source

/-- A token, and the one in its place where keywords are spelled anew. -/
structure Spelt (m : ScanMode) (spell : Keyword → String) (t t' : Token) : Prop where
  kind : t'.kind = t.kind
  line : t'.line = t.line
  keyword : ∀ k, t.kind = .keyword k → t'.literal = spell k ∨ t'.literal = t.literal
  string : t.kind = .string → t'.literal.toList = Pieces.recode (text m spell) t.literal.toList
  other : (∀ k, t.kind ≠ .keyword k) → t.kind ≠ .string → t'.literal = t.literal

/-- The same of the tokens of a text in which no name is one of the new words. -/
structure Respelt (m : ScanMode) (spell : Keyword → String) (m' : ScanMode) (t t' : Token) : Prop
    extends Spelt m spell t t' where
  free : FreeToken m m' t

variable {m m' : ScanMode} {spell : Keyword → String}

theorem Free.token {text : List Char} {tokens : List Token} {t : Token} (h : Free m m' text)
    (hs : (scan m text).tokens = .ok tokens) (ht : t ∈ tokens) : FreeToken m m' t where
  name hk := h _ (.name hs ht hk)
  code hk _ _ hp _ hw := h _ (.code hs ht hk hp hw)

/-- The same of a token that may have a name in it that is one of the new words. -/
structure Matches (m : ScanMode) (spell : Keyword → String) (m' : ScanMode) (t t' : Token) :
    Prop where
  newline : t'.kind = .newline ↔ t.kind = .newline
  respelt : FreeToken m m' t → Respelt m spell m' t t'

/-- Tokens that are no names, keywords and strings are taken over. -/
theorem Matches.same {kind : TokenKind} {literal : String} {p p' : Position}
    (hk : kind ≠ .name ∧ kind ≠ .string ∧ ∀ k, kind ≠ .keyword k) (hl : p'.line = p.line) :
    Matches m spell m' ⟨kind, literal, p⟩ ⟨kind, literal, p'⟩ where
  newline := Iff.rfl
  respelt free :=
    ⟨⟨rfl, hl, fun k h => absurd h (hk.2.2 k), fun h => absurd h hk.2.1, fun _ _ => rfl⟩, free⟩

/-! ## Side by side -/

/-- Two scanners at the same place of a text and of the text spelled anew; at
the start of a line they are in the same column. -/
structure Along (m : ScanMode) (spell : Keyword → String) (fresh : Bool) (a a' : Spot) : Prop where
  rest : a'.rest = text m spell a.rest
  line : a'.place.line = a.place.line
  place : fresh = true → a'.place = a.place

namespace Along

variable {fresh : Bool} {a a' : Spot} {taken taken' more : List Char}

theorem later (h : Along m spell fresh a a') : Along m spell false a a' :=
  ⟨h.rest, h.line, by simp⟩

/-- Both pass the same characters. -/
theorem copy (h : Along m spell fresh a a') (hr : a.rest = taken ++ more)
    (ht : text m spell (taken ++ more) = taken ++ text m spell more) :
    Along m spell fresh (a.past taken) (a'.past taken) := by
  obtain ⟨hrest, hplace⟩ := Spot.past_spec hr
  obtain ⟨hrest', hplace'⟩ := Spot.past_spec (h.rest.trans (hr ▸ ht))
  refine ⟨by rw [hrest, hrest'], ?_, fun hf => ?_⟩
  · rw [hplace, hplace']
    exact Position.line_behind h.line taken
  · rw [hplace, hplace', h.place hf]

/-- Both pass a part of the line, and there are two spellings of it. -/
theorem past (h : Along m spell fresh a a') (hr : a.rest = taken ++ more)
    (ht : text m spell (taken ++ more) = taken' ++ text m spell more) (hl : '\n' ∉ taken)
    (hl' : '\n' ∉ taken') : Along m spell false (a.past taken) (a'.past taken') := by
  obtain ⟨hrest, hplace⟩ := Spot.past_spec hr
  obtain ⟨hrest', hplace'⟩ := Spot.past_spec (h.rest.trans (hr ▸ ht))
  refine ⟨by rw [hrest, hrest'], ?_, by simp⟩
  rw [hplace, hplace', Position.behind_line hl, Position.behind_line hl']
  exact h.line

end Along

/-! ## What is passed without a token -/

theorem takeWhile_text {p : Char → Bool} (hs : Words spell)
    (hp : ∀ c, p c = true → ∀ cs, text m spell (c :: cs) = c :: text m spell cs)
    (hw : ∀ c, Grammar.isWordStart c = true → p c = false) (cs : List Char) :
    (text m spell cs).takeWhile p = cs.takeWhile p ∧
      text m spell cs = cs.takeWhile p ++ text m spell (cs.dropWhile p) := by
  induction cs with
  | nil => exact ⟨rfl, rfl⟩
  | cons c cs ih =>
    by_cases hc : p c = true
    · rw [hp c hc, List.takeWhile_cons_of_pos hc, List.takeWhile_cons_of_pos hc,
        List.dropWhile_cons_of_pos hc, ih.1]
      exact ⟨rfl, by rw [List.cons_append, ← ih.2]⟩
    · rw [List.takeWhile_cons_of_neg hc, List.dropWhile_cons_of_neg hc]
      refine ⟨?_, rfl⟩
      have hh := (text_start (m := m) hs (c :: cs)).head hw
      cases htext : text m spell (c :: cs) with
      | nil => rfl
      | cons d ds =>
        rw [htext] at hh
        have hd : p d = false := by simpa [hc] using hh
        exact List.takeWhile_cons_of_neg (by simp [hd])

theorem text_plain {c : Char} (hw : Grammar.isWordStart c = false)
    (hc : c ≠ '#' ∧ c ≠ '/' ∧ c ≠ '"' ∧ c ≠ '\'' ∧ c ≠ '\\') (cs : List Char) :
    text m spell (c :: cs) = c :: text m spell cs := by
  obtain ⟨hh, hs, hd, ha, hb⟩ := hc
  exact text_copy hw hh (fun h => absurd h hs) (by simp [opens, hd, ha]) hb

theorem text_gap {c : Char} (hc : Spot.isGap c = true) (cs : List Char) :
    text m spell (c :: cs) = c :: text m spell cs := by
  have hcases : c = ' ' ∨ c = '\t' ∨ c = '\r' ∨ c = '\x0c' := by
    simp only [Spot.isGap, Bool.or_eq_true, decide_eq_true_eq, or_assoc] at hc
    refine hc.imp id (Or.imp id (Or.imp id fun h => ?_))
    rw [← Char.ofNat_toNat c, h]
  rcases hcases with rfl | rfl | rfl | rfl <;> exact text_plain (by decide) (by decide) cs

theorem text_newline (cs : List Char) : text m spell ('\n' :: cs) = '\n' :: text m spell cs :=
  text_plain (by decide) (by decide) cs

theorem isGap_word {c : Char} (hc : Grammar.isWordStart c = true) : Spot.isGap c = false := by
  cases hg : Spot.isGap c with
  | false => rfl
  | true =>
    simp only [Spot.isGap, Bool.or_eq_true, decide_eq_true_eq, or_assoc] at hg
    rcases hg with rfl | rfl | rfl | h
    · exact absurd hc (by decide)
    · exact absurd hc (by decide)
    · exact absurd hc (by decide)
    · rw [← Char.ofNat_toNat c, h] at hc
      exact absurd hc (by decide)

namespace Along

variable {fresh : Bool} {a a' : Spot}

theorem pastGap (hs : Words spell) (h : Along m spell fresh a a') :
    Along m spell fresh a.pastGap a'.pastGap := by
  obtain ⟨htake, ht⟩ := takeWhile_text (m := m) hs (fun _ => text_gap) (fun _ => isGap_word) a.rest
  have hr := (List.takeWhile_append_dropWhile (p := Spot.isGap) (l := a.rest)).symm
  have hc := h.copy hr (by rw [← hr]; exact ht)
  unfold Spot.pastGap Spot.pastWhile
  rwa [h.rest, htake]

/-- A comment up to the end of its line. -/
theorem lineEnd (h : Along m spell fresh a a') {c : Char} {cs : List Char} (hr : a.rest = c :: cs)
    (hc : c = '#' ∨ c = '/' ∧ cs.head? = some '/') :
    Along m spell fresh a.lineEnd a'.lineEnd := by
  have hsplit := (List.takeWhile_append_dropWhile (p := (· ≠ '\n')) (l := a.rest)).symm
  have ht : text m spell a.rest =
      a.rest.takeWhile (· ≠ '\n') ++ text m spell (a.rest.dropWhile (· ≠ '\n')) := by
    rw [hr]
    exact text_comment hc
  have hmore : (text m spell (a.rest.dropWhile (· ≠ '\n'))).takeWhile (· ≠ '\n') = [] := by
    have hhead := List.head?_dropWhile_not (· ≠ '\n') a.rest
    cases hd : a.rest.dropWhile (· ≠ '\n') with
    | nil => rfl
    | cons d ds =>
      rw [hd] at hhead
      obtain rfl : d = '\n' := by simpa using hhead
      simp [text_newline]
  have htake : (text m spell a.rest).takeWhile (· ≠ '\n') = a.rest.takeWhile (· ≠ '\n') := by
    rw [ht, List.takeWhile_append_of_pos fun c => Scan.State.mem_takeWhile, hmore, List.append_nil]
  have hcopy := h.copy hsplit (by rw [← hsplit]; exact ht)
  unfold Spot.lineEnd Spot.pastWhile
  rwa [h.rest, htake]

/-- A comment up to the mark that closes it. -/
theorem pastComment (h : Along m spell fresh a a') {cs : List Char} {b : Spot}
    (hr : a.rest = '/' :: '*' :: cs) (hb : a.pastComment? = some b) :
    ∃ b', a'.pastComment? = some b' ∧ Along m spell fresh b b' ∧
      ∃ taken, taken ≠ [] ∧ a.rest = taken ++ b.rest ∧ a'.rest = taken ++ b'.rest := by
  unfold Spot.pastComment? at hb ⊢
  dsimp only at hb ⊢
  obtain ⟨inside, hi, rfl⟩ := Option.map_eq_some_iff.1 hb
  have hnext : a.next.next.rest = cs := by
    rw [Spot.rest_next, Spot.rest_next, hr]
    rfl
  rw [hnext] at hi
  obtain ⟨more, rfl⟩ := Spot.commentText?_prefix hi
  have ht : text m spell ('/' :: '*' :: inside ++ more) =
      '/' :: '*' :: inside ++ text m spell more := by
    have h : text m spell ('/' :: '*' :: (inside ++ more)) = _ := text_block hi
    rwa [List.drop_left] at h
  have hcopy := h.copy hr ht
  have hnext' : a'.next.next.rest = inside ++ text m spell more := by
    rw [Spot.rest_next, Spot.rest_next, h.rest, hr]
    exact congrArg (List.drop 1 ∘ List.drop 1) ht
  refine ⟨a'.next.next.past inside, ?_, hcopy, '/' :: '*' :: inside, by simp, ?_, ?_⟩
  · rw [hnext', Spot.commentText?_append hi]
    rfl
  · rw [hr, (Spot.past_spec hnext).1]
    rfl
  · rw [h.rest, hr, (Spot.past_spec hnext').1]
    exact ht

end Along

/-! ## States -/

open Scan

/-- Two scanners that have read the same tokens, but for the spelling of keywords. -/
structure Near (m : ScanMode) (spell : Keyword → String) (m' : ScanMode) (s s' : State) :
    Prop where
  spot : Along m spell s.atLineStart s.spot s'.spot
  indents : s'.indents = s.indents
  brackets : s'.brackets = s.brackets
  atLineStart : s'.atLineStart = s.atLineStart
  tokens : List.Forall₂ (Matches m spell m') s.tokens s'.tokens

/-- What both scanners get to by passing some characters. -/
structure Advances (m : ScanMode) (spell : Keyword → String) (m' : ScanMode)
    (s s' u u' : State) : Prop where
  near : Near m spell m' u u'
  less : u.spot.rest.length < s.spot.rest.length
  less' : u'.spot.rest.length < s'.spot.rest.length

variable {s s' u : State} {c : Char} {rest taken taken' more : List Char}

namespace Near

/-- Both move on without a token. -/
theorem moveTo (h : Near m spell m' s s') {a a' : Spot}
    (ha : Along m spell s.atLineStart a a') : Near m spell m' (s.moveTo a) (s'.moveTo a') :=
  ⟨ha, h.indents, h.brackets, h.atLineStart, h.tokens⟩

theorem text_comment_head (m : ScanMode) (spell : Keyword → String) {c : Char} {rest : List Char}
    (hc : c = '#' ∨ c = '/' ∧ rest.head? = some '/') : ∃ more, text m spell (c :: rest) = c :: more := by
  rw [text_comment hc, List.takeWhile_cons_of_pos (by rcases hc with rfl | ⟨rfl, -⟩ <;> decide)]
  exact ⟨_, rfl⟩

theorem pastHash (h : Near m spell m' s s') (hr : s.spot.rest = '#' :: rest) :
    Advances m spell m' s s' s.pastHash s'.pastHash := by
  obtain ⟨more, hmore⟩ : ∃ more, text m spell ('#' :: rest) = '#' :: more :=
    text_comment_head m spell (.inl rfl)
  exact ⟨⟨h.spot.lineEnd hr (.inl rfl), h.indents, h.brackets, h.atLineStart, h.tokens⟩,
    Spot.rest_lineEnd_lt hr (by decide), Spot.rest_lineEnd_lt (h.spot.rest.trans (hr ▸ hmore)) (by decide)⟩

theorem pastSlashes (h : Near m spell m' s s') (hr : s.spot.rest = '/' :: '/' :: rest) :
    Advances m spell m' s s' (s.moveTo s.spot.lineEnd) (s'.moveTo s'.spot.lineEnd) := by
  obtain ⟨more, hmore⟩ : ∃ more, text m spell ('/' :: '/' :: rest) = '/' :: more :=
    text_comment_head m spell (.inr ⟨rfl, rfl⟩)
  exact ⟨h.moveTo (h.spot.lineEnd hr (.inr ⟨rfl, rfl⟩)), Spot.rest_lineEnd_lt hr (by decide),
    Spot.rest_lineEnd_lt (h.spot.rest.trans (hr ▸ hmore)) (by decide)⟩

theorem pastComment (h : Near m spell m' s s') (hr : s.spot.rest = '/' :: '*' :: rest)
    (hu : s.pastComment = .ok u) : ∃ u', s'.pastComment = .ok u' ∧ Advances m spell m' s s' u u' ∧
      u.atLineStart = s.atLineStart := by
  unfold State.pastComment at hu ⊢
  cases hc : s.spot.pastComment? with
  | none => simp [hc, State.stop] at hu
  | some b =>
    rw [hc] at hu
    obtain rfl := Except.ok.inj hu
    obtain ⟨b', hb', hab, taken, hne, ht, ht'⟩ := h.spot.pastComment hr hc
    have hpos := List.length_pos_iff.2 hne
    refine ⟨s'.moveTo b', by rw [hb'], ⟨h.moveTo hab, ?_, ?_⟩, rfl⟩
    · rw [ht, List.length_append]
      simp only [State.moveTo]
      omega
    · rw [ht', List.length_append]
      simp only [State.moveTo]
      omega

/-- Both read a token within a line. -/
theorem push (h : Near m spell m' s s') (hs : s.atLineStart = false)
    (hr : s.spot.rest = taken ++ more)
    (ht : text m spell (taken ++ more) = taken' ++ text m spell more) (hne : taken ≠ [])
    (hne' : taken' ≠ []) (hl : '\n' ∉ taken) (hl' : '\n' ∉ taken') {kind kind' : TokenKind}
    (hm : Matches m spell m' ⟨kind, String.ofList taken, s.spot.place⟩
      ⟨kind', String.ofList taken', s'.spot.place⟩) :
    Advances m spell m' s s' (s.push kind taken) (s'.push kind' taken') where
  near :=
    { spot := by simpa only [State.push, hs] using h.spot.past hr ht hl hl'
      indents := h.indents
      brackets := h.brackets
      atLineStart := h.atLineStart
      tokens := .cons hm h.tokens }
  less := Spot.rest_past_lt hr hne
  less' := Spot.rest_past_lt (h.spot.rest.trans (hr ▸ ht)) hne'

/-- Both read a token that is written the same. -/
theorem pushSame (h : Near m spell m' s s') (hs : s.atLineStart = false)
    (hr : s.spot.rest = taken ++ more)
    (ht : text m spell (taken ++ more) = taken ++ text m spell more) (hne : taken ≠ [])
    (hl : '\n' ∉ taken) {kind : TokenKind}
    (hk : kind ≠ .name ∧ kind ≠ .string ∧ ∀ k, kind ≠ .keyword k) :
    Advances m spell m' s s' (s.push kind taken) (s'.push kind taken) :=
  h.push hs hr ht hne hne hl hl (.same hk h.spot.line)

/-! ## Tokens of a line -/

/-- The kind of a token that is a word. -/
def wordKind (g : Grammar) (w : List Char) : TokenKind :=
  match g.keyword? (String.ofList w) with
  | some k => .keyword k
  | none => .name

theorem wordKind_ne (g : Grammar) (w : List Char) : wordKind g w ≠ .newline := by
  unfold wordKind
  split <;> simp

/-- A word is read as the keyword it was, or as a name if it is none of the new words. -/
theorem matches_word (hm : Respelling m spell m') {w : List Char} {p p' : Position}
    (hl : p'.line = p.line) :
    Matches m spell m' ⟨wordKind m.grammar w, String.ofList w, p⟩
      ⟨wordKind m'.grammar (word m spell w), String.ofList (word m spell w), p'⟩ := by
  refine ⟨iff_of_false (wordKind_ne _ _) (wordKind_ne _ _), fun free => ?_⟩
  unfold wordKind word at *
  cases hk : m.grammar.keyword? (String.ofList w) with
  | some k =>
    simp only [hk, String.ofList_toList, hm.grammar.keyword k] at free ⊢
    refine ⟨⟨rfl, hl, fun j hj => .inl ?_, by simp, by simp⟩, free⟩
    obtain rfl : k = j := by simpa using hj
    rfl
  | none =>
    simp only [hk] at free ⊢
    simp only [free.name rfl]
    exact ⟨⟨rfl, hl, by simp, by simp, fun _ _ => rfl⟩, free⟩

/-- Where no word goes on, none starts either. -/
theorem SameStart.noWord {cs cs' : List Char} (h : SameStart cs cs')
    (hc : cs.takeWhile Grammar.isWordChar = []) : cs'.takeWhile Grammar.isWordChar = [] := by
  cases h with
  | none => rfl
  | same c => simpa using hc
  | words _ _ old _ => simp [Grammar.isWordChar, old] at hc

theorem readName (hm : Respelling m spell m') (h : Near m spell m' s s')
    (hs : s.atLineStart = false) (hc : s.spot.rest = c :: rest)
    (hw : Grammar.isWordStart c = true) :
    Advances m spell m' s s' (s.readName m.grammar) (s'.readName m'.grammar) := by
  obtain ⟨d, d', v, v', hv, hv', hd, hd', hall, hall'⟩ :=
    word_cases (m := m) hm.words (isWord_takeWhile rest hw)
  rw [← hc] at hv hv'
  have hstart {e : Char} (he : Grammar.isWordStart e = true) : Grammar.isWordChar e = true := by
    simp [Grammar.isWordChar, he]
  have hold : ∀ e ∈ s.spot.rest.takeWhile Grammar.isWordChar, Grammar.isWordChar e = true :=
    fun e => State.mem_takeWhile
  have hnew : ∀ e ∈ word m spell (s.spot.rest.takeWhile Grammar.isWordChar),
      Grammar.isWordChar e = true := by
    rw [hv']
    exact List.forall_mem_cons.2 ⟨hstart hd', hall'⟩
  have hr := (List.takeWhile_append_dropWhile (p := Grammar.isWordChar) (l := s.spot.rest)).symm
  have ht : text m spell s.spot.rest = word m spell (s.spot.rest.takeWhile Grammar.isWordChar) ++
      text m spell (s.spot.rest.dropWhile Grammar.isWordChar) := by
    rw [hc]
    exact text_word hw
  -- behind the word there is no more of it
  have hmore : (text m spell (s.spot.rest.dropWhile Grammar.isWordChar)).takeWhile
      Grammar.isWordChar = [] := by
    refine SameStart.noWord (text_start hm.words _) ?_
    have hhead := List.head?_dropWhile_not Grammar.isWordChar s.spot.rest
    cases hd : s.spot.rest.dropWhile Grammar.isWordChar with
    | nil => rfl
    | cons e es =>
      rw [hd] at hhead
      simpa using hhead
  have htake : s'.spot.rest.takeWhile Grammar.isWordChar =
      word m spell (s.spot.rest.takeWhile Grammar.isWordChar) := by
    rw [h.spot.rest, ht, List.takeWhile_append_of_pos hnew, hmore, List.append_nil]
  have hadv := h.push hs hr (by rw [← hr]; exact ht) (by simp [hv]) (by simp [hv'])
    (State.not_newline_of hold (by decide)) (State.not_newline_of hnew (by decide))
    (matches_word hm h.spot.line)
  unfold State.readName
  simp only [htake]
  exact hadv

theorem readString (hm : Respelling m spell m') (h : Near m spell m' s s')
    (hs : s.atLineStart = false) (hc : s.spot.rest = c :: rest) (ho : opens m c = true)
    (hu : s.readString c = .ok u) :
    ∃ u', s'.readString c = .ok u' ∧ Advances m spell m' s s' u u' := by
  have hq := opens_quote ho
  obtain ⟨hrest, -⟩ := Spot.next_spec hc
  unfold State.readString at hu
  dsimp only at hu
  split at hu
  · rename_i raw after hb
    obtain rfl := Except.ok.inj hu
    rw [hrest] at hb
    obtain ⟨rfl, hraw⟩ := Quotes.body_ok hb
    have hcode (source : List Char) := text_reworded (m := m) hm.words source false (by simp)
    have hword := Pieces.recode_reworded hcode raw false
    have hclose := Quotes.Closes.reworded hq hb hword .text s'.spot.next.place (text m spell after)
    have hnew := (Quotes.body_ok hclose).2
    have ht : text m spell (c :: (raw ++ c :: after)) = _ := text_string ho hb
    have hrest' : s'.spot.rest = c :: (Pieces.recode (text m spell) raw ++ c :: text m spell after) := by
      rw [h.spot.rest, hc, ht]
      rfl
    rw [Quotes.Closes, ← (Spot.next_spec hrest').1] at hclose
    refine ⟨_, by unfold State.readString; simp only [hclose]; rfl, ?_⟩
    have hn : c ≠ '\n' := by rcases hq with rfl | rfl <;> decide
    have hr : s.spot.rest = (c :: raw ++ [c]) ++ after := by simp [hc]
    have ht : text m spell ((c :: raw ++ [c]) ++ after) =
        (c :: Pieces.recode (text m spell) raw ++ [c]) ++ text m spell after := by
      rw [← hr, hc, ht]
      simp
    rw [s.spot.past_quoted c, s'.spot.past_quoted c]
    refine ⟨⟨?_, h.indents, h.brackets, h.atLineStart, .cons ⟨Iff.rfl, fun free => ?_⟩ h.tokens⟩,
      Spot.rest_past_lt hr (by simp), Spot.rest_past_lt (h.spot.rest.trans (hr ▸ ht)) (by simp)⟩
    · have hl {cs : List Char} (hcs : '\n' ∉ cs) : '\n' ∉ c :: cs ++ [c] := by
        simp [hcs, Ne.symm hn]
      simpa only [hs] using h.spot.past hr ht (hl hraw) (hl hnew)
    · exact ⟨⟨rfl, h.spot.line, by simp, by simp, by simp⟩, free⟩
  · simp [State.stop] at hu
  · simp [State.stop] at hu

end Near

theorem isDigit_word {d : Char} (hd : Grammar.isWordStart d = true) : Text.isDigit d = false := by
  simp only [Grammar.isWordStart, Bool.or_eq_true, Bool.and_eq_true, decide_eq_true_eq,
    beq_iff_eq] at hd
  simp only [Text.isDigit, Bool.and_eq_false_iff, decide_eq_false_iff_not]
  right
  rcases hd with (⟨h, -⟩ | ⟨h, -⟩) | rfl
  · exact fun h' => absurd (Char.le_trans h h') (by decide)
  · exact fun h' => absurd (Char.le_trans h h') (by decide)
  · decide

theorem text_digit {d : Char} (hd : Text.isDigit d = true) (cs : List Char) :
    text m spell (d :: cs) = d :: text m spell cs := by
  refine text_plain ?_ ?_ cs
  · cases hw : Grammar.isWordStart d with
    | false => rfl
    | true => simp [isDigit_word hw] at hd
  · refine ⟨?_, ?_, ?_, ?_, ?_⟩ <;>
    · rintro rfl
      exact absurd hd (by decide)

theorem pointed_text (hs : Words spell) (cs : List Char) :
    pointed (text m spell cs) = pointed cs := by
  have hnot {c : Char} (cs : List Char) (hc : Grammar.isWordStart c = true) :
      pointed (c :: cs) = false := by
    unfold pointed
    split
    · rename_i he
      obtain ⟨rfl, -⟩ := List.cons.inj he
      exact absurd hc (by decide)
    · rfl
  have hstart := text_start (m := m) hs cs
  cases cs with
  | nil => rfl
  | cons c cs =>
    by_cases hc : c = '.'
    · subst hc
      rw [text_plain (by decide) (by decide)]
      have hh := (text_start (m := m) hs cs).head (p := Text.isDigit) fun _ => isDigit_word
      revert hh
      cases cs <;> cases text m spell _ <;> simp [pointed]
    · have hne (ds : List Char) : pointed (c :: ds) = false := by
        unfold pointed
        split
        · rename_i he
          exact absurd (List.cons.inj he).1 hc
        · rfl
      revert hstart
      generalize text m spell (c :: cs) = new
      rintro (_ | _ | ⟨_, _, _, hw⟩)
      · rw [hne, hne]
      · rw [hne, hnot _ hw]

namespace Near

theorem readNumber (hs : Words spell) (h : Near m spell m' s s') (hl : s.atLineStart = false)
    (hc : s.spot.rest = c :: rest) (hd : Text.isDigit c = true) (hu : s.readNumber = .ok u) :
    ∃ u', s'.readNumber = .ok u' ∧ Advances m spell m' s s' u u' := by
  obtain ⟨htake, ht⟩ :=
    takeWhile_text (m := m) hs (fun _ => text_digit) (fun _ => isDigit_word) s.spot.rest
  have hr := (List.takeWhile_append_dropWhile (p := Text.isDigit) (l := s.spot.rest)).symm
  have hdrop : (text m spell s.spot.rest).dropWhile Text.isDigit =
      text m spell (s.spot.rest.dropWhile Text.isDigit) := by
    have happend := List.takeWhile_append_dropWhile (p := Text.isDigit) (l := text m spell s.spot.rest)
    rw [htake] at happend
    exact List.append_cancel_left (happend.trans ht)
  have hne : s.spot.rest.takeWhile Text.isDigit ≠ [] := by
    rw [hc, List.takeWhile_cons_of_pos hd]
    simp
  have hdigits (cs : List Char) : ∀ d ∈ cs.takeWhile Text.isDigit, Text.isDigit d = true :=
    fun d => State.mem_takeWhile
  rw [State.readNumber_eq] at hu ⊢
  rw [h.spot.rest, htake, hdrop, pointed_text hs]
  split at hu
  · rename_i hp
    obtain rfl := Except.ok.inj hu
    obtain ⟨d, digits, hmore, -⟩ := pointed_iff.1 hp
    generalize d :: digits = more at hmore
    obtain ⟨htake', ht'⟩ := takeWhile_text (m := m) hs (fun _ => text_digit)
      (fun _ => isDigit_word) more
    have hpoint : text m spell ('.' :: more) = '.' :: text m spell more :=
      text_plain (by decide) (by decide) more
    rw [if_pos hp, hmore]
    rw [hmore] at hr ht
    simp only [hpoint, List.drop_succ_cons, List.drop_zero, htake']
    refine ⟨_, rfl, @pushSame _ _ _ _ _ _ (more.dropWhile Text.isDigit) h hl ?_ ?_ (by simp)
      ?_ _ (by simp)⟩
    · rw [List.append_assoc, List.cons_append, List.takeWhile_append_dropWhile]
      exact hr
    · rw [List.append_assoc, List.cons_append, List.takeWhile_append_dropWhile, ← hr, ht, hpoint,
        List.append_assoc, List.cons_append, ← ht']
    · refine State.not_newline_of (p := fun d => Text.isDigit d || d == '.') (fun d hd => ?_)
        (by decide)
      simp only [List.mem_append, List.mem_cons] at hd
      rcases hd with hd | rfl | hd
      · simp [hdigits _ d hd]
      · simp
      · simp [hdigits _ d hd]
  · rename_i hp
    rw [if_neg hp]
    unfold State.readNumber.intToken at hu ⊢
    split at hu
    · rename_i hfits
      obtain rfl := Except.ok.inj hu
      rw [if_pos hfits]
      exact ⟨_, rfl, h.pushSame hl hr (by rw [← hr]; exact ht) hne
        (State.not_newline_of (hdigits _) (by decide)) (by simp)⟩
    · simp [State.stop] at hu

end Near

theorem single?_backslash : State.single? '\\' = none := by decide

theorem SameStart.noPair {cs cs' : List Char} (h : SameStart cs cs')
    (hp : (cs.head?.bind fun d => (State.pair? c d).map fun symbol => (symbol, [c, d])) = Option.none) :
    (cs'.head?.bind fun d => (State.pair? c d).map fun symbol => (symbol, [c, d])) = Option.none := by
  cases h with
  | none | same => exact hp
  | @words _ d _ _ _ new =>
    cases hd : State.pair? c d with
    | none => simp [hd]
    | some symbol =>
      obtain ⟨rfl, -⟩ := State.pair?_second hd
      exact absurd new (by decide)

namespace Near

theorem readSymbol (hs : Words spell) (h : Near m spell m' s s') (hl : s.atLineStart = false)
    (hc : s.spot.rest = c :: rest) (hn : c ≠ '\n')
    (ht : c ≠ '\\' → text m spell (c :: rest) = c :: text m spell rest)
    (hu : s.readSymbol c rest = .ok u) :
    ∃ u', s'.readSymbol c (text m spell rest) = .ok u' ∧ Advances m spell m' s s' u u' := by
  unfold State.readSymbol at hu ⊢
  split at hu
  · rename_i symbol taken hpair
    obtain rfl := Except.ok.inj hu
    simp only [Option.bind_eq_some_iff, Option.map_eq_some_iff, Prod.mk.injEq] at hpair
    obtain ⟨d, hd, symbol, hp, rfl, rfl⟩ := hpair
    obtain ⟨rfl, hb⟩ := State.pair?_second hp
    obtain ⟨more, rfl⟩ : ∃ more, rest = '=' :: more := by
      cases rest with
      | nil => simp at hd
      | cons e more => exact ⟨more, by simpa using hd⟩
    have he : text m spell ('=' :: more) = '=' :: text m spell more :=
      text_plain (by decide) (by decide) more
    simp only [he, List.head?_cons, Option.bind_some, hp, Option.map_some]
    have hr : s.spot.rest = [c, '='] ++ more := hc
    exact ⟨_, rfl, h.pushSame hl hr ((ht hb).trans (by rw [he]; rfl)) (by simp)
      (Symbol.not_newline hp) (by simp)⟩
  · rename_i hpair
    split at hu
    · rename_i symbol hsingle
      obtain rfl := Except.ok.inj hu
      have hb : c ≠ '\\' := by
        rintro rfl
        simp [single?_backslash] at hsingle
      simp only [(text_start (m := m) hs rest).noPair hpair]
      have hr : s.spot.rest = [c] ++ rest := hc
      have hadv : Advances m spell m' s s' (s.push (.symbol symbol) [c]) (s'.push (.symbol symbol) [c]) :=
        h.pushSame hl hr (ht hb) (by simp) (by simpa using Ne.symm hn) (by simp)
      refine ⟨_, rfl, ⟨⟨hadv.near.spot, hadv.near.indents, ?_, hadv.near.atLineStart,
        hadv.near.tokens⟩, hadv.less, hadv.less'⟩⟩
      simp only [h.brackets]
    · simp [State.stop] at hu

/-- Both get behind the end of a line. -/
theorem newline (h : Near m spell m' s s') (hc : s.spot.rest = '\n' :: rest) :
    Advances m spell m' s s' { s.push .newline ['\n'] with atLineStart := true }
      { s'.push .newline ['\n'] with atLineStart := true } := by
  have hr : s.spot.rest = ['\n'] ++ rest := hc
  have ht : text m spell (['\n'] ++ rest) = ['\n'] ++ text m spell rest := text_newline rest
  obtain ⟨hrest, hplace⟩ := Spot.past_spec hr
  obtain ⟨hrest', hplace'⟩ := Spot.past_spec (h.spot.rest.trans (hr ▸ ht))
  have he : (s'.spot.past ['\n']).place = (s.spot.past ['\n']).place := by
    rw [hplace, hplace']
    change Position.mk (s'.spot.place.line + 1) 1 = Position.mk (s.spot.place.line + 1) 1
    rw [h.spot.line]
  exact ⟨⟨⟨by simp only [State.push, hrest, hrest'], congrArg Position.line he, fun _ => he⟩,
    h.indents, h.brackets, rfl, .cons (.same (by simp) h.spot.line) h.tokens⟩,
    Spot.rest_past_lt hr (by simp), Spot.rest_past_lt (h.spot.rest.trans (hr ▸ ht)) (by simp)⟩

/-- Both pass a newline between brackets. -/
theorem pastNewline (h : Near m spell m' s s') (hc : s.spot.rest = '\n' :: rest) :
    Advances m spell m' s s' (s.moveTo s.spot.next) (s'.moveTo s'.spot.next) := by
  have hr : s.spot.rest = ['\n'] ++ rest := hc
  have ht : text m spell (['\n'] ++ rest) = ['\n'] ++ text m spell rest := text_newline rest
  have hlt := Spot.rest_past_lt hr (by simp)
  have hlt' := Spot.rest_past_lt (h.spot.rest.trans (hr ▸ ht)) (by simp)
  exact ⟨h.moveTo (h.spot.copy hr ht), hlt, hlt'⟩

end Near

theorem lead_word (hc : Grammar.isWordStart c = true) : lead (c :: rest) = .code := by
  refine lead_cons ?_ ?_ ?_ <;> rintro rfl <;> exact absurd hc (by decide)

theorem head_text_ne (hs : Words spell) {cs : List Char} {d : Char}
    (hd : Grammar.isWordStart d = false) (hne : cs.head? ≠ some d) :
    (text m spell cs).head? ≠ some d := by
  have := (text_start (m := m) hs cs).head (p := (· == d)) fun e he => by
    rw [beq_eq_false_iff_ne]
    rintro rfl
    simp [hd] at he
  intro htext
  rw [htext] at this
  cases hcs : cs.head? <;> simp_all

theorem text_cons (hs : Words spell) (hw : Grammar.isWordStart c = false) (cs : List Char) :
    ∃ more, text m spell (c :: cs) = c :: more := by
  have hstart := text_start (m := m) hs (c :: cs)
  revert hstart
  generalize text m spell (c :: cs) = new
  rintro (_ | _ | ⟨_, _, old, new⟩)
  · exact ⟨_, rfl⟩
  · simp [hw] at old

/-- The text spelled anew starts with the same. -/
theorem lead_text (hs : Words spell) (cs : List Char) : lead (text m spell cs) = lead cs := by
  cases cs with
  | nil => rfl
  | cons c cs =>
    by_cases hslash : c = '/'
    · subst hslash
      by_cases hh : cs.head? = some '/'
      · obtain ⟨ds, rfl⟩ : ∃ ds, cs = '/' :: ds := List.head?_eq_some_iff.1 hh
        rw [text_comment (.inr ⟨rfl, rfl⟩)]
        rfl
      by_cases hb : cs.head? = some '*'
      · obtain ⟨ds, rfl⟩ : ∃ ds, cs = '*' :: ds := List.head?_eq_some_iff.1 hb
        rw [text_eq, step, if_neg (by decide), if_neg (by simp), if_pos (by simp)]
        split <;> rfl
      · rw [text_copy (by decide) (by decide) (fun _ => ⟨hh, hb⟩) (by simp [opens]) (by decide),
          lead_cons (by decide) (by decide) fun _ => ⟨hh, hb⟩,
          lead_cons (by decide) (by decide) fun _ =>
            ⟨head_text_ne hs (by decide) hh, head_text_ne hs (by decide) hb⟩]
    · have hstart := text_start (m := m) hs (c :: cs)
      revert hstart
      generalize text m spell (c :: cs) = new
      rintro (_ | _ | ⟨_, _, old, new⟩)
      · unfold lead
        split <;> simp_all
      · rw [lead_word old, lead_word new]

namespace Near

/-! ## The start of a line -/

theorem closeWider {w : Nat} {p p' : Position} (hl : p'.line = p.line) (indents : List Nat)
    {tokens tokens' : List Token} (h : List.Forall₂ (Matches m spell m') tokens tokens') :
    (State.closeWider w p' indents tokens').1 = (State.closeWider w p indents tokens).1 ∧
      List.Forall₂ (Matches m spell m') (State.closeWider w p indents tokens).2
        (State.closeWider w p' indents tokens').2 := by
  induction indents generalizing tokens tokens' with
  | nil => exact ⟨rfl, h⟩
  | cons top indents ih =>
    unfold State.closeWider
    split
    · exact ih (.cons (.same (by simp) hl) h)
    · exact ⟨rfl, h⟩

/-- Both set the same indentation; the line has no start any more. -/
theorem indentTo (h : Near m spell m' s s') {w : Nat} (hu : s.indentTo w = .ok u) :
    ∃ u', s'.indentTo w = .ok u' ∧ Near m spell m' u u' ∧ u.atLineStart = false ∧
      u.spot = s.spot ∧ u'.spot = s'.spot := by
  unfold State.indentTo at hu ⊢
  obtain ⟨hindents, htokens⟩ := closeWider (w := w) h.spot.line s.indents h.tokens
  simp only [h.indents] at hu ⊢
  split at hu
  · rename_i hw
    obtain rfl := Except.ok.inj hu
    rw [if_pos hw]
    exact ⟨_, rfl, ⟨h.spot.later, rfl, h.brackets, rfl,
      .cons (.same (by simp) h.spot.line) h.tokens⟩, rfl, rfl, rfl⟩
  · rename_i hw
    rw [if_neg hw]
    split at hu
    · rename_i hback
      obtain rfl := Except.ok.inj hu
      rw [if_pos (by rw [hindents]; exact hback)]
      exact ⟨_, rfl, ⟨h.spot.later, hindents, h.brackets, rfl, htokens⟩, rfl, rfl, rfl⟩
    · simp [State.stop] at hu

/-- What both scanners are at behind the lines without code: the end of the
text, or the first code of a line. -/
structure Starts (m : ScanMode) (spell : Keyword → String) (m' : ScanMode) (s s' : State)
    (p : State × Bool) (u' : State) : Prop where
  near : Near m spell m' p.1 u'
  within : p.2 = true → p.1.atLineStart = false
  le : p.1.spot.rest.length ≤ s.spot.rest.length
  le' : u'.spot.rest.length ≤ s'.spot.rest.length

/-- Both indent the line they are in. -/
theorem starts_indentTo {a a' : State} {w : Nat} {p : State × Bool} (h : Near m spell m' a a')
    (hu : (a.indentTo w).map (·, true) = .ok p)
    (hle : a.spot.rest.length ≤ s.spot.rest.length)
    (hle' : a'.spot.rest.length ≤ s'.spot.rest.length) :
    ∃ u', (a'.indentTo w).map (·, true) = .ok (u', p.2) ∧ Starts m spell m' s s' p u' := by
  obtain ⟨u, hi, rfl⟩ := map_eq_ok.1 hu
  obtain ⟨u', hu', hnear, hline, hspot, hspot'⟩ := h.indentTo hi
  exact ⟨u', by rw [hu']; rfl, hnear, fun _ => hline, hspot ▸ hle, hspot' ▸ hle'⟩

/-- Both pass the same lines without code. -/
theorem startLine (hs : Words spell) {fuel fuel' : Nat} {p : State × Bool}
    (h : Near m spell m' s s') (hl : s.atLineStart = true) (hf : s.spot.rest.length < fuel)
    (hf' : s'.spot.rest.length < fuel') (hu : s.startLine fuel = .ok p) :
    ∃ u', s'.startLine fuel' = .ok (u', p.2) ∧ Starts m spell m' s s' p u' := by
  induction fuel generalizing s s' fuel' with
  | zero => omega
  | succ fuel ih =>
  obtain ⟨fuel', rfl⟩ : ∃ n, fuel' = n + 1 := ⟨fuel' - 1, by omega⟩
  have hgap := h.spot.pastGap hs
  have hat : Near m spell m' (s.moveTo s.spot.pastGap) (s'.moveTo s'.spot.pastGap) := h.moveTo hgap
  have hle := Spot.rest_pastGap_le s.spot
  have hle' := Spot.rest_pastGap_le s'.spot
  have hw : s'.width = s.width := by
    have := (takeWhile_text (m := m) hs (fun _ => text_gap) (fun _ => isGap_word) s.spot.rest).1
    rw [State.width, State.width, h.spot.rest, this]
  -- behind a line without code
  have again {a a' : State} (ha : Near m spell m' a a') (hline : a.atLineStart = true)
      (hlt : a.spot.rest.length < s.spot.rest.length)
      (hlt' : a'.spot.rest.length < s'.spot.rest.length)
      (hu : a.startLine fuel = .ok p) :
      ∃ u', a'.startLine fuel' = .ok (u', p.2) ∧ Starts m spell m' s s' p u' := by
    have hlt' : a'.spot.rest.length < fuel' := by omega
    obtain ⟨u', hu', hstarts⟩ := ih ha hline (by omega) hlt' hu
    exact ⟨u', hu', hstarts.near, hstarts.within, by have := hstarts.le; omega,
      by have := hstarts.le'; omega⟩
  rw [State.startLine_eq] at hu ⊢
  have hlead : lead s'.spot.pastGap.rest = lead s.spot.pastGap.rest := by
    rw [hgap.rest, lead_text hs]
  rw [hlead]
  rcases lead_cases s.spot.pastGap.rest with ⟨he, hr⟩ | ⟨ds, he, hr⟩ | ⟨ds, he, hr⟩ | ⟨ds, he, hr⟩ |
    ⟨ds, he, hr⟩ | he
  · rw [he] at hu ⊢
    obtain rfl := Except.ok.inj hu
    exact ⟨_, rfl, hat, by simp, hle, hle'⟩
  · rw [he] at hu ⊢
    have hadv := hat.pastNewline hr
    exact again hadv.near hl (Nat.lt_of_lt_of_le hadv.less hle)
      (Nat.lt_of_lt_of_le hadv.less' hle') hu
  · rw [he] at hu ⊢
    have hadv := hat.pastHash hr
    exact again hadv.near hl (Nat.lt_of_lt_of_le hadv.less hle)
      (Nat.lt_of_lt_of_le hadv.less' hle') hu
  · rw [he] at hu ⊢
    have hadv := hat.pastSlashes hr
    exact again hadv.near hl (Nat.lt_of_lt_of_le hadv.less hle)
      (Nat.lt_of_lt_of_le hadv.less' hle') hu
  · rw [he] at hu ⊢
    dsimp only at hu ⊢
    cases hc : (s.moveTo s.spot.pastGap).pastComment with
    | error stop => simp [hc] at hu
    | ok a =>
      obtain ⟨a', hc', hadv, hline⟩ := hat.pastComment hr hc
      have hgap := hadv.near.spot.pastGap hs
      have hlt := Nat.lt_of_le_of_lt (Spot.rest_pastGap_le a.spot) (Nat.lt_of_lt_of_le hadv.less hle)
      have hlt' := Nat.lt_of_le_of_lt (Spot.rest_pastGap_le a'.spot) (Nat.lt_of_lt_of_le hadv.less' hle')
      have hstart : a.atLineStart = true := hline.trans hl
      rw [hc] at hu
      rw [hc']
      dsimp only at hu ⊢
      rw [hgap.rest, lead_text hs]
      split at hu
      · rename_i hcode
        rw [if_pos hcode, hgap.place hstart]
        exact starts_indentTo (hadv.near.moveTo hgap) hu (Nat.le_of_lt hlt) (Nat.le_of_lt hlt')
      · rename_i hblank
        rw [if_neg hblank]
        exact again (hadv.near.moveTo hgap) hstart hlt hlt' hu
  · rw [he] at hu ⊢
    rw [hw]
    exact starts_indentTo hat hu hle hle'

/-! ## A step and a run -/

theorem readSymbol_backslash : s.readSymbol '\\' rest ≠ .ok u := by
  unfold State.readSymbol
  split
  · rename_i hpair
    simp only [Option.bind_eq_some_iff, Option.map_eq_some_iff] at hpair
    obtain ⟨d, -, symbol, hp, -⟩ := hpair
    exact absurd rfl (State.pair?_second hp).2
  · simp [single?_backslash, State.stop]

theorem readNext (hm : Respelling m spell m') (h : Near m spell m' s s')
    (hl : s.atLineStart = false) (hc : s.spot.rest = c :: rest)
    (hu : s.readNext m c rest = .ok u) :
    ∃ c' rest' u', s'.spot.rest = c' :: rest' ∧ s'.readNext m' c' rest' = .ok u' ∧
      Advances m spell m' s s' u u' := by
  have hs := hm.words
  have hrest := h.spot.rest
  rw [hc] at hrest
  -- what is read from the same character on
  have same {cs : List Char} (ht : text m spell (c :: rest) = c :: cs)
      (hread : ∃ u', s'.readNext m' c cs = .ok u' ∧ Advances m spell m' s s' u u') :
      ∃ c' rest' u', s'.spot.rest = c' :: rest' ∧ s'.readNext m' c' rest' = .ok u' ∧
        Advances m spell m' s s' u u' := by
    obtain ⟨u', hu', hadv⟩ := hread
    exact ⟨c, _, u', hrest.trans ht, hu', hadv⟩
  unfold State.readNext at hu
  split at hu
  · rename_i hn
    subst hn
    refine same (text_newline rest) ?_
    rw [State.readNext, if_pos rfl, h.brackets]
    split at hu
    · rename_i hb
      obtain rfl := Except.ok.inj hu
      rw [if_pos hb]
      exact ⟨_, rfl, h.newline hc⟩
    · rename_i hb
      obtain rfl := Except.ok.inj hu
      rw [if_neg hb]
      exact ⟨_, rfl, h.pastNewline hc⟩
  rename_i hn
  split at hu
  · rename_i hslash
    obtain ⟨rfl, hslash⟩ := hslash
    obtain ⟨ds, rfl⟩ := List.head?_eq_some_iff.1 hslash
    obtain rfl := Except.ok.inj hu
    obtain ⟨more, hmore⟩ : ∃ more, text m spell ('/' :: '/' :: ds) = '/' :: '/' :: more := by
      rw [text_comment (.inr ⟨rfl, rfl⟩)]
      exact ⟨_, rfl⟩
    exact same hmore ⟨_, by rw [State.readNext, if_neg hn, if_pos ⟨rfl, rfl⟩], h.pastSlashes hc⟩
  rename_i hslash
  split at hu
  · rename_i hstar
    obtain ⟨rfl, hstar⟩ := hstar
    obtain ⟨ds, rfl⟩ := List.head?_eq_some_iff.1 hstar
    obtain ⟨u', hu', hadv, -⟩ := h.pastComment hc hu
    obtain ⟨more, hmore⟩ : ∃ more, text m spell ('/' :: '*' :: ds) = '/' :: '*' :: more := by
      rw [text_eq, step, if_neg (by decide), if_neg (by simp), if_pos (by simp)]
      split <;> exact ⟨_, rfl⟩
    exact same hmore
      ⟨u', by rw [State.readNext, if_neg hn, if_neg (by simp), if_pos ⟨rfl, rfl⟩]; exact hu', hadv⟩
  rename_i hstar
  split at hu
  · rename_i hh
    subst hh
    obtain rfl := Except.ok.inj hu
    obtain ⟨more, hmore⟩ : ∃ more, text m spell ('#' :: rest) = '#' :: more :=
      text_comment_head m spell (.inl rfl)
    exact same hmore ⟨_, by rfl, h.pastHash hc⟩
  rename_i hh
  split at hu
  · rename_i hq
    subst hq
    obtain ⟨more, hmore⟩ := text_cons (m := m) (c := '"') hs (by decide) rest
    obtain ⟨u', hu', hadv⟩ := h.readString hm hl hc (by simp [opens]) hu
    exact same hmore ⟨u', by simpa [State.readNext] using hu', hadv⟩
  rename_i hq
  split at hu
  · rename_i ha
    obtain ⟨rfl, ha⟩ := ha
    obtain ⟨more, hmore⟩ := text_cons (m := m) (c := '\'') hs (by decide) rest
    obtain ⟨u', hu', hadv⟩ := h.readString hm hl hc (by simpa [opens] using ha) hu
    exact same hmore ⟨u', by simpa [State.readNext, hm.quotes, ha] using hu', hadv⟩
  rename_i ha
  split at hu
  · rename_i hw
    obtain rfl := Except.ok.inj hu
    obtain ⟨d, d', v, v', hv, hv', hd, hd', -⟩ :=
      word_cases (m := m) hs (isWord_takeWhile rest hw)
    rw [text_word hw, hv'] at hrest
    exact ⟨d', _, _, hrest, State.readNext_word hd', h.readName hm hl hc hw⟩
  rename_i hw
  have hw : Grammar.isWordStart c = false := by simpa using hw
  have ho : opens m c = false := by simpa [opens, hq] using ha
  have hcopy (hb : c ≠ '\\') : text m spell (c :: rest) = c :: text m spell rest :=
    text_copy hw hh (fun hc => ⟨fun h => hslash ⟨hc, h⟩, fun h => hstar ⟨hc, h⟩⟩) ho hb
  have hslash' (hb : c = '/') : (text m spell rest).head? ≠ some '/' :=
    head_text_ne hs (by decide) fun h => hslash ⟨hb, h⟩
  have hstar' (hb : c = '/') : (text m spell rest).head? ≠ some '*' :=
    head_text_ne hs (by decide) fun h => hstar ⟨hb, h⟩
  have hread : s'.readNext m' c (text m spell rest) =
      if Text.isDigit c then s'.readNumber else s'.readSymbol c (text m spell rest) := by
    rw [State.readNext, if_neg hn, if_neg fun h => hslash' h.1 h.2, if_neg fun h => hstar' h.1 h.2,
      if_neg hh, if_neg hq, if_neg (by rw [hm.quotes]; exact ha), if_neg (by simp [hw])]
  split at hu
  · rename_i hd
    obtain ⟨u', hu', hadv⟩ := h.readNumber hs hl hc hd hu
    exact same (text_digit hd rest) ⟨u', by rw [hread, if_pos hd, hu'], hadv⟩
  · rename_i hd
    have hb : c ≠ '\\' := fun hb => by
      subst hb
      exact readSymbol_backslash hu
    obtain ⟨u', hu', hadv⟩ := h.readSymbol hs hl hc hn hcopy hu
    exact same (hcopy hb) ⟨u', by rw [hread, if_neg hd, hu'], hadv⟩

/-- Where both scanners are behind a step, and that they got further if there was any. -/
structure Steps (m : ScanMode) (spell : Keyword → String) (m' : ScanMode) (s s' : State)
    (p : State × Bool) (u' : State) : Prop where
  near : Near m spell m' p.1 u'
  less : p.2 = true → p.1.spot.rest.length < s.spot.rest.length
  less' : p.2 = true → u'.spot.rest.length < s'.spot.rest.length

theorem onLine_near (hm : Respelling m spell m') {v : State} {p q : State × Bool}
    (h : Starts m spell m' s s' q v) (hu : State.onLine m q = .ok p) :
    ∃ u', State.onLine m' (v, q.2) = .ok (u', p.2) ∧ Steps m spell m' s s' p u' := by
  unfold State.onLine at hu ⊢
  split at hu
  · rename_i hmore
    have hgap := h.near.spot.pastGap hm.words
    have hat := h.near.moveTo hgap
    have hle := Nat.le_trans (Spot.rest_pastGap_le q.1.spot) h.le
    have hle' := Nat.le_trans (Spot.rest_pastGap_le v.spot) h.le'
    rw [if_pos hmore]
    dsimp only
    split at hu
    · rename_i hr
      obtain rfl := Except.ok.inj hu
      rw [hgap.rest, hr]
      exact ⟨_, rfl, hat, by simp, by simp⟩
    · rename_i c rest hr
      obtain ⟨u, hn, rfl⟩ := map_eq_ok.1 hu
      obtain ⟨c', rest', u', hr', hu', hadv⟩ := hat.readNext hm (h.within hmore) hr hn
      change v.spot.pastGap.rest = _ at hr'
      rw [hr']
      exact ⟨u', by simp only [hu']; rfl, hadv.near, fun _ => Nat.lt_of_lt_of_le hadv.less hle,
        fun _ => Nat.lt_of_lt_of_le hadv.less' hle'⟩
  · rename_i hmore
    obtain rfl := Except.ok.inj hu
    rw [if_neg hmore]
    exact ⟨v, rfl, h.near, by simp, by simp⟩

theorem step (hm : Respelling m spell m') {fuel fuel' : Nat} {p : State × Bool}
    (h : Near m spell m' s s') (hf : s.spot.rest.length < fuel)
    (hf' : s'.spot.rest.length < fuel') (hu : s.step m fuel = .ok p) :
    ∃ u', s'.step m' fuel' = .ok (u', p.2) ∧ Steps m spell m' s s' p u' := by
  rw [State.step_eq] at hu ⊢
  rw [h.atLineStart]
  split at hu
  · rename_i hl
    rw [if_pos hl]
    obtain ⟨q, hq, hu⟩ := ok_of_bind hu
    obtain ⟨v, hv, hstarts⟩ := h.startLine hm.words hl hf hf' hq
    rw [hv]
    exact onLine_near hm hstarts hu
  · rename_i hl
    rw [if_neg hl]
    exact onLine_near hm ⟨h, fun _ => by simpa using hl, Nat.le_refl _, Nat.le_refl _⟩ hu

theorem finish (h : Near m spell m' s s') :
    List.Forall₂ (Matches m spell m') s.finish s'.finish := by
  have hl := h.spot.line
  have layout {kind : TokenKind} {literal : String}
      (hk : kind ≠ .name ∧ kind ≠ .string ∧ ∀ k, kind ≠ .keyword k) :
      Matches m spell m' ⟨kind, literal, s.spot.place⟩ ⟨kind, literal, s'.spot.place⟩ :=
    .same hk hl
  unfold State.finish
  dsimp only
  rw [h.indents]
  refine List.rel_append (List.rel_append (List.rel_append (List.rel_reverse h.tokens) ?_) ?_)
    (.cons (layout (by simp)) .nil)
  · have htokens := h.tokens
    revert htokens
    generalize s.tokens = tokens, s'.tokens = tokens'
    rintro (_ | ⟨hm, _⟩)
    · exact .nil
    · dsimp only
      split
      · rename_i hk
        rw [if_pos (hm.newline.2 hk)]
        exact .nil
      · rename_i hk
        rw [if_neg fun hk' => hk (hm.newline.1 hk')]
        exact .cons (layout (by simp)) .nil
  · exact List.forall₂_map_left_iff.2 (List.forall₂_map_right_iff.2
      (List.forall₂_same.2 fun _ _ => layout (by simp)))

/-- Both come to the end of the text. -/
theorem run (hm : Respelling m spell m') {n n' : Nat} {ts : List Token} (h : Near m spell m' s s')
    (hf : s.spot.rest.length < n) (hf' : s'.spot.rest.length < n')
    (hr : (s.run m n).tokens = .ok ts) :
    ∃ ts', (s'.run m' n').tokens = .ok ts' ∧ List.Forall₂ (Matches m spell m') ts ts' := by
  induction n generalizing s s' n' with
  | zero => omega
  | succ n ih =>
    obtain ⟨n', rfl⟩ : ∃ k, n' = k + 1 := ⟨n' - 1, by omega⟩
    unfold State.run at hr ⊢
    split at hr
    · simp at hr
    · rename_i u hu
      obtain ⟨u', hu', hsteps⟩ := h.step hm hf hf' hu
      have hless : u.spot.rest.length < s.spot.rest.length := hsteps.less rfl
      have hless' := hsteps.less' rfl
      rw [hu']
      have hlt' : u'.spot.rest.length < n' := by omega
      exact ih hsteps.near (show u.spot.rest.length < n by omega) hlt' hr
    · rename_i u hu
      obtain ⟨u', hu', hsteps⟩ := h.step hm hf hf' hu
      obtain rfl := Except.ok.inj hr
      rw [hu']
      exact ⟨_, rfl, hsteps.near.finish⟩

end Near

theorem dropMark_text (hs : Words spell) (cs : List Char) :
    Text.dropMark (text m spell cs) = text m spell (Text.dropMark cs) := by
  cases cs with
  | nil => rfl
  | cons c cs =>
    have hmark : Grammar.isWordStart Text.byteOrderMark = false := by decide
    by_cases hc : c = Text.byteOrderMark
    · subst hc
      rw [text_plain hmark (by decide)]
      simp [Text.dropMark]
    · have hstart := text_start (m := m) hs (c :: cs)
      rw [Text.dropMark, if_neg hc]
      revert hstart
      generalize text m spell (c :: cs) = new
      rintro (_ | _ | ⟨_, _, old, new⟩)
      · simp [Text.dropMark, hc]
      · rw [Text.dropMark, if_neg]
        rintro rfl
        simp [hmark] at new

/-- A text spelled anew has the tokens of the text it was. -/
theorem scan_respelt (hm : Respelling m spell m') {cs : List Char} {ts : List Token}
    (hfree : Free m m' cs) (h : (scan m cs).tokens = .ok ts) :
    ∃ ts', (scan m' (text m spell cs)).tokens = .ok ts' ∧
      List.Forall₂ (Respelt m spell m') ts ts' := by
  have hlen (cs : List Char) : (Text.dropMark cs).length < cs.length + 1 :=
    Nat.lt_succ_of_le (Text.length_dropMark cs)
  have hstart : Near m spell m' (.start cs) (.start (text m spell cs)) :=
    ⟨⟨dropMark_text hm.words cs, rfl, fun _ => rfl⟩, rfl, rfl, rfl, .nil⟩
  obtain ⟨ts', hts', hmatch⟩ := hstart.run hm (hlen cs) (hlen _) h
  refine ⟨ts', hts', ?_⟩
  have hall : ∀ t ∈ ts, FreeToken m m' t := fun t => hfree.token h
  clear hts' h
  induction hmatch with
  | nil => exact .nil
  | cons ht _ ih =>
    obtain ⟨hfirst, hrest⟩ := List.forall_mem_cons.1 hall
    exact .cons (ht.respelt hfirst) (ih hrest)

end Respell

end StoryLang
