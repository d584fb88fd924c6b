/-
Which words the scanner reads as which keywords.

A word is read as a keyword if and only if a line of the grammar spells the
keyword like that (`keyword?_eq_some_iff`). Lines may come in any order and
spell one keyword in many ways, but each line is refused whose word another
keyword has: so the table of words and the table of spellings go together, and
this is kept from line to line. How reports write a keyword is one of its words,
and the scanner reads a text of that word back as the keyword (`scan_word`).
-/
import StoryLang.Proofs.Grammar.Declared
import StoryLang.Proofs.Token.Comment
import StoryLang.Proofs.Token.Spelled

namespace StoryLang

/-- A line of the text spells the keyword like that. -/
def Keyword.SpelledIn (source word : String) (k : Keyword) : Prop :=
  ["keyword", k.name, word] ∈ (Text.lines source.toList).map Grammar.lineWords

namespace Keyword

theorem ofName?_name (k : Keyword) : ofName? k.name = some k := by cases k <;> decide

theorem name_inj {k k' : Keyword} (h : k.name = k'.name) : k = k' := by
  have hk := ofName?_name k
  rw [h, ofName?_name] at hk
  exact (Option.some.inj hk).symm

end Keyword

namespace Grammar

variable {g g' : Grammar} {directive word spelling : String} {words : List String} {k : Keyword}
  {lines : List (List Char)} {n : Nat} {source : String}

/-! ## The words of keywords -/

theorem keyword?_of_cons (h : g'.keywords = (spelling, k) :: g.keywords) (word : String) :
    g'.keyword? word = if spelling = word then some k else g.keyword? word := by
  unfold keyword?
  rw [h, List.find?_cons]
  by_cases hs : spelling = word <;> simp [hs]

theorem spelling?_of_cons (h : g'.spellings = (k, spelling) :: g.spellings) (k' : Keyword) :
    g'.spelling? k' = if k = k' then some spelling else g.spelling? k' := by
  unfold spelling?
  rw [h, List.find?_cons]
  by_cases hk : k = k' <;> simp [hk]

/-- Other directives do not spell keywords. -/
theorem declare_other (hd : directive ≠ "keyword") (h : g.declare directive words = .ok g') :
    g'.keywords = g.keywords ∧ g'.spellings = g.spellings := by
  unfold declare at h
  rw [if_neg hd] at h
  split at h
  · obtain ⟨_, rfl, -⟩ := declareBetween_operates h
    exact ⟨rfl, rfl⟩
  split at h
  · obtain ⟨_, rfl, -⟩ := declareBefore_operates h
    exact ⟨rfl, rfl⟩
  split at h
  · obtain ⟨_, -, rfl⟩ := declareCast_only h
    exact ⟨rfl, rfl⟩
  split at h
  · obtain rfl := Except.ok.inj h
    exact ⟨rfl, rfl⟩
  split at h
  · obtain rfl := Except.ok.inj h
    exact ⟨rfl, rfl⟩
  · cases h

/-- A line adds the word that it spells a keyword with, and no word is lost. -/
theorem declare_keyword? (h : g.declare directive words = .ok g') :
    g'.keyword? word = some k ↔
      g.keyword? word = some k ∨ directive :: words = ["keyword", k.name, word] := by
  by_cases hd : directive = "keyword"
  · subst hd
    obtain ⟨k', spelling, rfl, -, hfree, rfl⟩ := declareKeyword_ok h
    have hline : "keyword" :: [k'.name, spelling] = ["keyword", k.name, word] ↔
        k' = k ∧ spelling = word := by
      simp only [List.cons.injEq, true_and, and_true]
      exact and_congr_left' ⟨Keyword.name_inj, congrArg _⟩
    rw [keyword?_of_cons rfl, hline]
    split
    · rename_i hs
      subst hs
      simp only [Option.some.injEq, and_true]
      exact ⟨.inr, fun hk => hk.elim (fun hk => (hfree k hk).symm) id⟩
    · rename_i hs
      simp [hs]
  · have hsame : g'.keyword? word = g.keyword? word := by
      unfold keyword?
      rw [(declare_other hd h).1]
    simp [hsame, hd]

theorem readLines_keyword? (h : g.readLines n lines = .ok g') :
    g'.keyword? word = some k ↔
      g.keyword? word = some k ∨ ["keyword", k.name, word] ∈ lines.map lineWords := by
  induction lines generalizing n g with
  | nil =>
    obtain rfl := Except.ok.inj h
    simp
  | cons line rest ih =>
    unfold readLines at h
    split at h
    · rename_i hblank
      simp [ih h, hblank]
    · rename_i directive words hwords
      split at h
      · rename_i hdeclare
        rw [ih h, declare_keyword? hdeclare, List.map_cons, List.mem_cons, hwords, or_assoc,
          eq_comm (a := directive :: words)]
      · cases h

/-- A word is read as a keyword if a line says so, and only then. -/
theorem keyword?_eq_some_iff (h : ofSource source = .ok g) :
    g.keyword? word = some k ↔ k.SpelledIn source word := by
  obtain ⟨g₀, castPrecedence, hread, -, -, -, rfl⟩ := ofSource_lines h
  have hlines : g₀.keyword? word = some k ↔ k.SpelledIn source word :=
    (readLines_keyword? hread).trans (or_iff_right (by simp [keyword?, empty]))
  exact hlines

/-! ## The spellings of keywords -/

/-- Every keyword is read from the spelling it has. -/
def ReadsSpellings (g : Grammar) : Prop :=
  ∀ k spelling, g.spelling? k = some spelling → g.keyword? spelling = some k

theorem ReadsSpellings.declare (hg : g.ReadsSpellings) (h : g.declare directive words = .ok g') :
    g'.ReadsSpellings := by
  intro k spelling hk
  rw [declare_keyword? h]
  by_cases hd : directive = "keyword"
  · subst hd
    obtain ⟨k', spelling', rfl, -, -, rfl⟩ := declareKeyword_ok h
    rw [spelling?_of_cons rfl] at hk
    split at hk
    · rename_i hsame
      obtain rfl := Option.some.inj hk
      exact .inr (by rw [hsame])
    · exact .inl (hg k spelling hk)
  · have hsame : g'.spelling? k = g.spelling? k := by
      unfold spelling?
      rw [(declare_other hd h).2]
    exact .inl (hg k spelling (hsame ▸ hk))

/-- How a report writes a keyword is one of the words that are read as it. -/
theorem keyword?_spelling (h : ofSource source = .ok g) (k : Keyword) :
    g.keyword? (g.spelling (.keyword k)) = some k := by
  obtain ⟨g₀, castPrecedence, hread, hspelled, -, -, rfl⟩ := ofSource_lines h
  have hempty : (empty source).ReadsSpellings := nofun
  have hreads : g₀.ReadsSpellings := readLines_keeps (P := ReadsSpellings) .declare hempty hread
  obtain ⟨spelling, hk⟩ := Option.isSome_iff_exists.1 (hspelled k)
  have hspelling : g₀.spelling (.keyword k) = spelling := by
    rw [Grammar.spelling, hk]
    rfl
  have hword := hreads k spelling hk
  rw [← hspelling] at hword
  exact hword

end Grammar

/-! ## A text of one word -/

namespace Grammar

/-- What a word is read as. -/
def wordKind (g : Grammar) (word : String) : TokenKind :=
  match g.keyword? word with
  | some k => .keyword k
  | none => .name

end Grammar

namespace Scan

open Grammar (isWord isWordStart isWordChar)

variable {m : ScanMode} {word : String}

/-- The one token of a text that is a word. -/
def wordToken (m : ScanMode) (word : String) : Token := ⟨m.grammar.wordKind word, word, .first⟩

/-- The layout behind it: the line ends, and the text does. -/
def wordEnd (word : String) : List Token :=
  [⟨.newline, "\n", ⟨1, 1 + word.length⟩⟩, ⟨.eof, "", ⟨1, 1 + word.length⟩⟩]

/-- The state behind a text that is a word. -/
def behindWord (m : ScanMode) (word : String) : State :=
  { spot := (Spot.start word.toList).past word.toList, indents := [], brackets := 0, atLineStart := false
    tokens := [wordToken m word], hashComments := [] }

theorem gap_wordStart {c : Char} (hc : isWordStart c = true) : Spot.isGap c = false := by
  refine Bool.eq_false_iff.2 fun hg => ?_
  have hword := Spot.isWordChar_gap hg
  simp [Grammar.isWordChar, hc] at hword

/-- A word is read in one move, up to the end of the text. -/
theorem move_word (hw : isWord word = true) :
    (State.start word.toList).move m .fresh = .ok (behindWord m word, some .inLine) := by
  obtain ⟨c, cs, hcs, hc, hchars⟩ := Grammar.isWord_cases hw
  have hne := wordStart_ne hc
  have hgap := gap_wordStart hc
  have hstart : State.start word.toList = ⟨.start (c :: cs), [], 0, true, [], []⟩ := by
    rw [State.start, hcs, Text.dropMark, if_neg (hne _ (by decide))]
  have hpast : (Spot.start (c :: cs)).pastGap = .start (c :: cs) :=
    Spot.pastGap_eq (w := []) rfl (by simp) (by simpa using hgap)
  have hwidth : (State.start word.toList).width = 0 := by
    rw [hstart, State.width, Spot.start, List.takeWhile_cons_of_neg (by simp [hgap])]
    rfl
  have hcode : lead (Spot.start (c :: cs)).rest = .code :=
    lead_cons (hne _ (by decide)) (hne _ (by decide)) fun h => absurd h (hne _ (by decide))
  have hall : (c :: cs).takeWhile isWordChar = c :: cs := by
    refine List.takeWhile_eq_self_iff.2 (List.forall_mem_cons.2 ⟨?_, hchars⟩)
    rw [Grammar.isWordChar, hc, Bool.true_or]
  have hindent : State.indentTo ⟨.start (c :: cs), [], 0, true, [], []⟩ 0 =
      .ok ⟨.start (c :: cs), [], 0, false, [], []⟩ := rfl
  have hread : State.readName ⟨.start (c :: cs), [], 0, false, [], []⟩ m.grammar = behindWord m word := by
    have hword : String.ofList (c :: cs) = word := by rw [← hcs, String.ofList_toList]
    rw [State.readName, behindWord, hcs]
    simp only [Spot.start, hall, hword, State.push]
    rfl
  rw [State.move, State.indentation, hwidth, hstart]
  simp only [State.moveTo, hpast]
  rw [State.act_code (by decide) hcode, hindent]
  change (State.readNext m _ c cs).map _ = _
  rw [State.readNext_word hc, hread]
  rfl

/-- Behind a word the text is at its end. -/
theorem spot_behindWord (hw : isWord word = true) : (behindWord m word).spot.rest = [] ∧
    (behindWord m word).spot.place = ⟨1, 1 + word.length⟩ := by
  obtain ⟨c, cs, hcs, hc, hchars⟩ := Grammar.isWord_cases hw
  have hline : '\n' ∉ word.toList := by
    rw [hcs]
    rintro (_ | ⟨_, hmem⟩)
    · exact absurd hc (by decide)
    · exact absurd (hchars _ hmem) (by decide)
  have hall : (Spot.start word.toList).rest = word.toList ++ [] := (List.append_nil _).symm
  obtain ⟨hrest, hplace⟩ := Spot.past_spec hall
  refine ⟨hrest, hplace.trans ?_⟩
  rw [Position.behind_line hline, String.length_toList]
  rfl

/-- A text that is a word is read as one token. -/
theorem scan_word (hw : isWord word = true) :
    (scan m word.toList).tokens = .ok (wordToken m word :: wordEnd word) := by
  obtain ⟨hrest, hplace⟩ := spot_behindWord (m := m) hw
  have hgap : (behindWord m word).spot.pastGap = (behindWord m word).spot :=
    Spot.pastGap_eq (w := []) hrest (by simp) (by simp)
  have hend : (behindWord m word).move m .inLine = .ok (behindWord m word, none) := by
    rw [State.move, hgap, State.act_inLine, State.readOn]
    simp only [State.moveTo, hrest]
  have hcomes : Comes m ((State.start word.toList).move m .fresh) (behindWord m word).scanned := by
    rw [move_word hw]
    refine .on ?_
    rw [hend]
    exact .done _
  have hfinish : (behindWord m word).finish = wordToken m word :: wordEnd word := by
    have hkind : (wordToken m word).kind ≠ .newline := by
      unfold wordToken Grammar.wordKind
      dsimp only
      split <;> simp
    rw [State.finish, hplace, behindWord, wordEnd]
    simp [hkind]
  rw [(comes_scan m word.toList).unique hcomes, State.scanned, hfinish]

end Scan

/-! ## Grammars agree with the scanner -/

namespace Grammar

variable {g : Grammar} {source : String}

/-- A grammar that was read and the scanner agree on keywords: what a report
writes for a keyword is scanned as this keyword and nothing else, so no two of
them are written alike, and what is scanned as a keyword is spelled so by a line
for this keyword, and by none for another. -/
theorem ofSource_keywords (h : ofSource source = .ok g) (singleQuotes : Bool) :
    (∀ k, (scan ⟨g, singleQuotes⟩ (g.spelling (.keyword k)).toList).tokens = .ok
      (⟨.keyword k, g.spelling (.keyword k), .first⟩ :: Scan.wordEnd (g.spelling (.keyword k)))) ∧
    (∀ k k', g.spelling (.keyword k) = g.spelling (.keyword k') → k = k') ∧
    ∀ text tokens, (scan ⟨g, singleQuotes⟩ text).tokens = .ok tokens →
      ∀ t ∈ tokens, ∀ k, t.kind = .keyword k → ∀ k', k'.SpelledIn source t.literal ↔ k' = k := by
  have hread := keyword?_spelling h
  refine ⟨fun k => ?_, fun k k' hsame => ?_, fun text tokens hscan t ht k hk k' => ?_⟩
  · have hkind : g.wordKind (g.spelling (.keyword k)) = .keyword k := by rw [wordKind, hread]
    rw [Scan.scan_word ((Accepted.spelled h).isWord_of_keyword (hread k)), Scan.wordToken, hkind]
  · have hk := hread k
    rw [hsame, hread k'] at hk
    exact (Option.some.inj hk).symm
  · have hspelled : g.keyword? t.literal = some k := by
      have ht := scan_spelled hscan t ht
      rwa [Token.Spelled, hk] at ht
    rw [← keyword?_eq_some_iff h, hspelled, Option.some.injEq]
    exact eq_comm

/-- Every keyword by its name, and `if` in a second way. -/
def doubledLines : List (List Char) :=
  (Keyword.all.map fun k => "keyword ".toList ++ k.name.toList ++ ' ' :: k.name.toList) ++
    ["keyword if given", "cast 1"].map String.toList

/-- The text of these lines. -/
def doubledSource : String := String.ofList (['\n'].intercalate doubledLines)

theorem readLines_doubledSource :
    (((empty doubledSource).readLines 1 (Text.lines doubledSource.toList)).toOption.map fun g =>
      (Keyword.all.all fun k => (g.spelling? k).isSome, g.castPrecedence, g.spelling (.keyword .ifWord),
        g.keyword? "if")) = some (true, 1, "given", some .ifWord) := by
  have hlines : Text.lines doubledSource.toList = doubledLines := by
    rw [doubledSource, String.toList_ofList]
    decide +kernel
  rw [hlines]
  decide +kernel

theorem ofSource_doubledSource : ∃ g, ofSource doubledSource = .ok g ∧
    g.spelling (.keyword .ifWord) = "given" ∧ g.keyword? "if" = some .ifWord := by
  obtain ⟨g, hg, hfacts⟩ := Option.map_eq_some_iff.1 readLines_doubledSource
  simp only [Prod.mk.injEq, List.all_eq_true] at hfacts
  obtain ⟨hspelled, hcast, hgiven, hif⟩ := hfacts
  exact ⟨g, ofSource_ok (toOption_eq_some.1 hg) (fun k => hspelled k k.mem_all) (by omega), hgiven, hif⟩

theorem ofSource_keywords_doubled : ∃ g, ofSource doubledSource = .ok g ∧
    (scan ⟨g, false⟩ "given".toList).tokens = .ok
      [⟨.keyword .ifWord, "given", .first⟩, ⟨.newline, "\n", ⟨1, 6⟩⟩, ⟨.eof, "", ⟨1, 6⟩⟩] ∧
    ∀ k : Keyword, k.SpelledIn doubledSource "if" ↔ k = .ifWord := by
  obtain ⟨g, hg, hgiven, hif⟩ := ofSource_doubledSource
  obtain ⟨hscan, -, hdeclared⟩ := ofSource_keywords hg false
  refine ⟨g, hg, ?_, ?_⟩
  · have hspelling := hscan .ifWord
    rwa [hgiven] at hspelling
  · have hword : (scan ⟨g, false⟩ "if".toList).tokens = .ok
        (⟨.keyword .ifWord, "if", .first⟩ :: Scan.wordEnd "if") := by
      rw [Scan.scan_word (by decide), Scan.wordToken, wordKind, hif]
    exact hdeclared _ _ hword _ List.mem_cons_self .ifWord rfl

end Grammar

end StoryLang
