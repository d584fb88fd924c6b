/-
Stories that differ in one code of one string.

If the two codes are read as the same value, the stories are made plain in the
same way: the pieces of the string are the same but for the code, and where the
string stands in a code itself, that is read as the same value but for it. In
the end no string holds code any more, so nothing but columns differs.

So blanks behind a code do not matter. But a code that blanks stand in front of
is not read: the scanner takes them for the indentation of a line, and the
reader of a value stops at the indent. As every code of a story has to be read,
no story with such a code is made plain, whatever the code is and wherever it
stands.
-/
import StoryLang.Proofs.Hoist.Alike
import StoryLang.Proofs.Hoist.Read
import StoryLang.Proofs.Token.Interpolates
import StoryLang.Proofs.Tree.Like
import StoryLang.Story.Basic

namespace StoryLang

/-- The tokens are the same but for their columns, if they are no strings with code. -/
structure Token.SameButCode (t t' : Token) : Prop where
  kind : t'.kind = t.kind
  line : t'.line = t.line
  literal : (t.kind = .string → Pieces.hasCode t.literal.toList = false) → t'.literal = t.literal

theorem Token.agrees_sameButCode : Token.Agrees Token.SameButCode where
  kind _ _ h := h.kind
  line _ _ h := h.line
  name _ _ h hk := h.literal (by simp [hk])

namespace Hoist

open Scan (Alters Recoded Interpolates)
open Pieces (holding Holds)

variable {m : ScanMode} {old new : List Char} {t t' : Token}

theorem sameButCode_alters (h : Alters m old new t t') : Token.SameButCode t t' := by
  cases h with
  | same line => exact ⟨rfl, line, fun _ => rfl⟩
  | string line holds _ =>
    refine ⟨rfl, line, fun hno => ?_⟩
    have hcode := hno rfl
    rw [String.toList_ofList, holds.hasCode] at hcode
    cases hcode

theorem agrees_alters (m : ScanMode) (old new : List Char) : Token.Agrees (Alters m old new) where
  kind _ _ h := (sameButCode_alters h).kind
  line _ _ h := (sameButCode_alters h).line
  name _ _ h := Token.agrees_sameButCode.name _ _ (sameButCode_alters h)

theorem carries_alters (m : ScanMode) (old new : List Char) :
    Carries (Alters m old new) Token.SameButCode where
  before := agrees_alters m old new
  after := Token.agrees_sameButCode
  keeps _ _ := sameButCode_alters
  made _ _ _ _ _ line := ⟨rfl, line, fun _ => rfl⟩

theorem setting_alters (m : ScanMode) (old new : List Char) :
    Read.StorySetting (Alters m old new) (fun _ _ => True) m.grammar m.grammar where
  tokens := (agrees_alters m old new).toReadsAs
  operators := rfl
  castPrecedence := rfl
  reserved := rfl
  typeNames := rfl
  stuck _ _ := trivial
  refused _ _ := trivial
  bounded := trivial

theorem moved_alters {start start' : Position} (h : Alters m old new t t')
    (hs : start'.line = start.line) : Alters m old new (moved start t) (moved start' t') := by
  cases h with
  | same line => exact .same (line_shift hs line)
  | string line holds codes => exact .string (line_shift hs line) holds codes

/-- The same code is read as the same value wherever it stands. -/
theorem readAlike_same (source : List Char) : ReadAlike m m (Alters m old new) source source :=
  ReadAlike.of_scan (setting_alters m old new).toSetting moved_alters fun hts =>
    ⟨_, hts, List.forall₂_same.2 fun _ _ => .same rfl⟩

/-- If the two codes are read alike, so are codes with strings that differ in them. -/
theorem sources_alters (hw : Text.Reworded false old new)
    (hread : ReadAlike m m (Alters m old new) old new) :
    Sources m m (Alters m old new) Token.SameButCode where
  carries := carries_alters m old new
  pieces t t' ht _ := by
    have same {p p' : Piece} (h : Pieces.Alike Eq p p') :
        Pieces.Alike (ReadAlike m m (Alters m old new)) p p' := by
      cases h with
      | text raw => exact .text raw
      | code related offset offset' =>
        subst related
        exact .code (readAlike_same _) offset offset'
    cases ht with
    | same => exact List.forall₂_same.2 fun p _ => same (Pieces.alike_refl p)
    | @string left source source' right _ _ _ holds codes =>
      obtain ⟨ps, qs, qs', hs, hs', hrest⟩ := Pieces.split_at (codes.reworded hw) holds
      have hcodes : ReadAlike m m (Alters m old new) source source' := by
        rcases codes with ⟨rfl, rfl⟩ | h
        · exact hread
        · exact ReadAlike.of_scan (setting_alters m old new).toSetting moved_alters (h.scan_alters hw)
      simp only [String.toList_ofList, holding]
      rw [hs, hs']
      exact List.rel_append (List.forall₂_same.2 fun p _ => same (Pieces.alike_refl p))
        (.cons (.code hcodes _ _) (hrest.imp fun _ _ => same))

/-- Codes that differ in blanks at their ends are read as the same value. -/
theorem readAlike_gaps {source gaps gaps' : List Char} (hg : Scan.Gaps gaps gaps') :
    ReadAlike m m (Alters m old new) (source ++ gaps) (source ++ gaps') :=
  ReadAlike.of_scan (setting_alters m old new).toSetting moved_alters
    (Scan.scan_gaps (Scan.lined_alters m old new) hg)

end Hoist

end StoryLang

namespace StoryLang

namespace Hoist

open StoryLang.Scan (Interpolates Recoded Stands quoting)
open StoryLang.Pieces (holding)

variable {m : ScanMode} {old new text text' : List Char} {tokens : List Token} {t v : Tree}

/-! ## The code has to be read -/

/-- The codes in the strings of a story that was made plain were read. -/
theorem story_isRead (hg : m.grammar.Accepted) (hts : (scan m text).tokens = .ok tokens)
    (ht : Tree.ofTokens m.grammar tokens = .ok t) (hv : story m t = .ok v) {u : Token} (hu : u ∈ tokens)
    (hk : u.kind = .string) {code : List Char} {offset : Nat}
    (hc : .code code offset ∈ Pieces.split u.literal.toList) : IsRead m code := by
  obtain ⟨trees, cs, left, i, rfl, -, hd, hformed, -, hh⟩ := story_hoists hg.keepsLayout ht hv
  -- the string stands in front of the end of the text
  obtain ⟨front, last, rfl, hlast, hfront⟩ := (scan_laidOut hts).ended
  have hbefore : (front ++ [last]).takeWhile (·.kind ≠ .eof) = front := by
    rw [List.takeWhile_append_of_pos fun t ht => decide_eq_true (hfront t ht)]
    simp [hlast]
  rw [hbefore] at hd
  have hmem : u ∈ front := by
    rcases List.mem_append.1 hu with hu | hu
    · exact hu
    · obtain rfl := List.mem_singleton.1 hu
      simp [hk] at hlast
  have hyield : u ∈ Tree.yieldAll trees := by
    have hsame := hd.spares.filter_eq (p := fun t => decide (t.kind = .string))
      (by simp +contextual [TokenKind.isSpare])
    have hin : u ∈ front.filter fun t => decide (t.kind = .string) :=
      List.mem_filter.2 ⟨hmem, decide_eq_true hk⟩
    rw [← hsame] at hin
    exact (List.mem_filter.1 hin).1
  obtain ⟨tree, htree, hin⟩ := Tree.of_mem_yieldAll hyield
  obtain ⟨line, hnode⟩ := (hd.housed hg tree htree).mem_walk hin hk
  have hcodes := hh.codesRead hformed
  exact hcodes tree htree line u hnode code offset hc

/-- Where a text with the other code was read, the other code was. -/
theorem IsRead.interpolates (hg : m.grammar.Accepted) (hw : Text.Reworded false old new)
    (h : Interpolates m old new text text') (hl : '\n' ∉ text') (hr : IsRead m text') : IsRead m new := by
  -- a code in a string of the text was read, and it has no newlines either
  have inner {quote : Char} {front left source right behind : List Char}
      (hs : Stands m quote front left source right)
      (hl : '\n' ∉ quoting front quote (holding left source right) behind)
      (hr : IsRead m (quoting front quote (holding left source right) behind)) :
      '\n' ∉ source ∧ IsRead m source := by
    obtain ⟨start, v, -, -, -, -, hread, -⟩ := id hr
    obtain ⟨front, lineEnd, behind, hts, -, -⟩ := readCode_line hg.keepsLayout hread
    obtain ⟨hline, u, hu, hk, offset, hc⟩ := hs.exists_code hts
    exact ⟨hline, hr.string hg hl hts hu hk hc⟩
  induction h with
  | here stands => exact (inner (stands.reworded hw) hl hr).2
  | deeper stands others ih =>
    obtain ⟨hline, hread⟩ := inner (stands.reworded (others.reworded hw)) hl hr
    exact ih hline hread

/-- Where a story with the other code was made plain, the other code was read. -/
theorem isRead_interpolates (hg : m.grammar.Accepted) (hw : Text.Reworded false old new)
    (h : Interpolates m old new text text') (hts : (scan m text').tokens = .ok tokens)
    (ht : Tree.ofTokens m.grammar tokens = .ok t) (hv : story m t = .ok v) : IsRead m new := by
  cases h with
  | here stands =>
    obtain ⟨-, u, hu, hk, offset, hc⟩ := (stands.reworded hw).exists_code hts
    exact story_isRead hg hts ht hv hu hk hc
  | deeper stands inner =>
    obtain ⟨hline, u, hu, hk, offset, hc⟩ := (stands.reworded (inner.reworded hw)).exists_code hts
    exact (story_isRead hg hts ht hv hu hk hc).interpolates hg hw inner hline

/-! ## Blanks behind the code -/

/-- With other blanks behind the code, the same story is made plain. -/
theorem story_gaps (hg : m.grammar.Accepted) {source gaps gaps' : List Char}
    (hs : ∀ c ∈ source, Text.isIdle c = true) (hgaps : Scan.Gaps gaps gaps')
    (h : Interpolates m (source ++ gaps) (source ++ gaps') text text')
    (hts : (scan m text).tokens = .ok tokens) (ht : Tree.ofTokens m.grammar tokens = .ok t)
    (hv : story m t = .ok v) : ∃ tokens' t' v', (scan m text').tokens = .ok tokens' ∧
      Tree.ofTokens m.grammar tokens' = .ok t' ∧ story m t' = .ok v' ∧
      v'.withoutColumns = v.withoutColumns := by
  have idle {gaps : List Char} (hgaps : ∀ c ∈ gaps, Spot.isGap c = true) :
      ∀ c ∈ source ++ gaps, Text.isIdle c = true :=
    List.forall_mem_append.2 ⟨hs, fun c hc => Text.isIdle_gap (hgaps c hc)⟩
  have hw := Text.Reworded.of_idle (idle hgaps.1) (idle hgaps.2)
  obtain ⟨tokens', hts', hrel⟩ := h.scan_alters hw hts
  obtain ⟨t', ht', hlike⟩ := (Tree.ofTokens_together (setting_alters m _ _) hrel
    (scan_ok hts).missingEnd (scan_ok hts').missingEnd).exists_ok ht
  obtain ⟨trees, rfl, hd⟩ := Tree.ofTokens_derives hg.keepsLayout ht
  have hformed := hd.formed (P := fun _ => True) fun _ _ => trivial
  obtain ⟨v', hv', hplain⟩ := story_alike (sources_alters hw (readAlike_gaps hgaps)) hg.keepsLayout
    hg.keepsLayout hlike (fun p hp => (hformed p hp).2) hv
  refine ⟨tokens', t', v', hts', ht', hv', ?_⟩
  -- no string with code is left
  have hno := story_uncoded hg ht hv
  have hcolumns : v.Like (fun u u' => u'.withoutColumn = u.withoutColumn) Tree.Named v' := by
    refine hplain.imp v v' (fun u hu u' _ hsame => ?_) fun _ _ _ _ _ _ row _ => row
    have hliteral := hsame.literal (hno u hu)
    simp [Token.withoutColumn, hsame.kind, hsame.line, hliteral]
  exact hcolumns.withoutColumns v v'

end Hoist

end StoryLang

/-! ## Stories -/

namespace StoryLang

namespace Story

open Scan (Interpolates)

variable {s s' : Story} {o : Options} {f : Features}

/-- A story is made plain if no stage fails. -/
theorem tree_ok (hf : s.features o = .ok f) {t : Tree} : s.tree o true = .ok t ↔
    ∃ tokens u, (scan (modeOf o f) s.source.toList).tokens = .ok tokens ∧
      Tree.ofTokens (modeOf o f).grammar tokens = .ok u ∧ Hoist.story (modeOf o f) u = .ok t := by
  simp only [tree, hf, scanned, if_true, hoistedTreeOf, treeOf]
  cases hts : (scan (modeOf o f) s.source.toList).tokens with
  | error fault => simp
  | ok tokens =>
    cases hu : Tree.ofTokens (modeOf o f).grammar tokens with
    | error fault => simp [hu, Bind.bind, Except.bind]
    | ok u => cases ht : Hoist.story (modeOf o f) u <;> simp [hu, ht, Bind.bind, Except.bind]

/-- The settings of a story are not in its strings. -/
theorem features_interpolates {m : ScanMode} {old new : List Char}
    (h : Interpolates m old new s.source.toList s'.source.toList) : s'.features o = s.features o := by
  unfold features
  rw [h.applyHeader]

/-- With other blanks behind the code the story is made plain, too. -/
theorem tree_gaps (hg : o.grammarInUse.Accepted) (hf : s.features o = .ok f) {code gaps gaps' : List Char}
    (hcode : ∀ c ∈ code, Text.isIdle c = true) (hgaps : Scan.Gaps gaps gaps')
    (h : Interpolates (modeOf o f) (code ++ gaps) (code ++ gaps') s.source.toList s'.source.toList)
    {t : Tree} (ht : s.tree o true = .ok t) :
    ∃ t', s'.tree o true = .ok t' ∧ t'.withoutColumns = t.withoutColumns := by
  obtain ⟨tokens, u, hts, hu, ht⟩ := (tree_ok hf).1 ht
  obtain ⟨tokens', u', t', hts', hu', ht', hsame⟩ := Hoist.story_gaps (m := modeOf o f) hg hcode hgaps h hts hu ht
  have hf' : s'.features o = .ok f := (features_interpolates h).trans hf
  exact ⟨t', (tree_ok hf').2 ⟨tokens', u', hts', hu', ht'⟩, hsame⟩

/-- With blanks around a code in a string, a story is made plain just if there are none in front
of the code and the story is made plain without the others, and then it is the same tree but for
columns. -/
theorem tree_padded (hg : o.grammarInUse.Accepted) (hf : s.features o = .ok f)
    {before code behind : List Char} (hcode : ∀ c ∈ code, Text.isIdle c = true)
    (hbefore : ∀ c ∈ before, c = ' ' ∨ c = '\t') (hbehind : ∀ c ∈ behind, c = ' ' ∨ c = '\t')
    (h : Interpolates (modeOf o f) code (before ++ code ++ behind) s.source.toList s'.source.toList) :
    ((∃ t', s'.tree o true = .ok t') ↔ before = [] ∧ ∃ t, s.tree o true = .ok t) ∧
      ∀ t t', s.tree o true = .ok t → s'.tree o true = .ok t' → t'.withoutColumns = t.withoutColumns := by
  have gap {blanks : List Char} (hb : ∀ c ∈ blanks, c = ' ' ∨ c = '\t') :
      ∀ c ∈ blanks, Spot.isGap c = true := by
    intro c hc
    rcases hb c hc with rfl | rfl <;> decide
  have idle {blanks : List Char} (hb : ∀ c ∈ blanks, c = ' ' ∨ c = '\t') :
      ∀ c ∈ blanks, Text.isIdle c = true := fun c hc => Text.isIdle_gap (gap hb c hc)
  have hw : Text.Reworded false code (before ++ code ++ behind) :=
    .of_idle hcode (List.forall_mem_append.2 ⟨List.forall_mem_append.2 ⟨idle hbefore, hcode⟩, idle hbehind⟩)
  have hf' : s'.features o = .ok f := (features_interpolates h).trans hf
  by_cases hnone : before = []
  · subst hnone
    have hsame {t : Tree} (ht : s.tree o true = .ok t) :
        ∃ t', s'.tree o true = .ok t' ∧ t'.withoutColumns = t.withoutColumns :=
      tree_gaps hg hf hcode (⟨by simp, gap hbehind⟩ : Scan.Gaps [] behind) (by simpa using h) ht
    refine ⟨⟨?_, ?_⟩, ?_⟩
    · rintro ⟨t', ht'⟩
      obtain ⟨t, ht, -⟩ := tree_gaps hg hf' hcode (⟨gap hbehind, by simp⟩ : Scan.Gaps behind [])
        (by simpa using h.symm hw) ht'
      exact ⟨rfl, t, ht⟩
    · rintro ⟨-, t, ht⟩
      obtain ⟨t', ht', -⟩ := hsame ht
      exact ⟨t', ht'⟩
    · intro t t' ht ht'
      obtain ⟨u, hu, heq⟩ := hsame ht
      obtain rfl := Except.ok.inj (hu.symm.trans ht')
      exact heq
  · -- the code is not read, but it would have to be
    have hno (t' : Tree) : s'.tree o true ≠ .ok t' := by
      intro ht'
      obtain ⟨tokens, u, hts, hu, ht'⟩ := (tree_ok hf').1 ht'
      have hread := Hoist.isRead_interpolates (m := modeOf o f) hg hw h hts hu ht'
      rw [List.append_assoc] at hread
      refine Hoist.not_isRead_led (m := modeOf o f) hg.keepsLayout hbefore hnone ?_ hread
      intro hn
      rcases List.mem_append.1 hn with hn | hn
      · exact absurd (hcode _ hn) (by decide)
      · exact absurd (idle hbehind _ hn) (by decide)
    refine ⟨⟨?_, fun hb => absurd hb.1 hnone⟩, fun _ t' _ ht' => absurd ht' (hno t')⟩
    rintro ⟨t', ht'⟩
    exact absurd ht' (hno t')

/-- A code in a string that stands in the code of a string. -/
theorem tree_padded_nested :
    Grammar.builtIn.Accepted ∧
    (unnamed "x = \"\x7bm[\"\x7ba\x7d\"]\x7d\"\n").features .standard = .ok .off ∧
    (∀ c ∈ ['a'], Text.isIdle c = true) ∧ (∀ c ∈ [' ', '\t'], c = ' ' ∨ c = '\t') ∧
    Interpolates (modeOf .standard .off) ['a'] ([] ++ ['a'] ++ [' ', '\t'])
      (unnamed "x = \"\x7bm[\"\x7ba\x7d\"]\x7d\"\n").source.toList
      (unnamed "x = \"\x7bm[\"\x7ba \t\x7d\"]\x7d\"\n").source.toList ∧
    ∃ t t', (unnamed "x = \"\x7bm[\"\x7ba\x7d\"]\x7d\"\n").tree .standard true = .ok t ∧
      (unnamed "x = \"\x7bm[\"\x7ba \t\x7d\"]\x7d\"\n").tree .standard true = .ok t' ∧
      t'.withoutColumns = t.withoutColumns := by
  have hf : (unnamed "x = \"\x7bm[\"\x7ba\x7d\"]\x7d\"\n").features .standard = .ok .off := by
    decide +kernel
  have hcode : ∀ c ∈ ['a'], Text.isIdle c = true := List.forall_mem_singleton.2 (by decide)
  have hbehind : ∀ c ∈ [' ', '\t'], c = ' ' ∨ c = '\t' := by simp
  have hinner : Interpolates (modeOf .standard .off) ['a'] ['a', ' ', '\t'] "m[\"\x7ba\x7d\"]".toList
      "m[\"\x7ba \t\x7d\"]".toList :=
    @Interpolates.here _ _ _ '"' "m[".toList [] [] [']'] (by decide +kernel)
  have h : Interpolates (modeOf .standard .off) ['a'] ([] ++ ['a'] ++ [' ', '\t'])
      (unnamed "x = \"\x7bm[\"\x7ba\x7d\"]\x7d\"\n").source.toList
      (unnamed "x = \"\x7bm[\"\x7ba \t\x7d\"]\x7d\"\n").source.toList :=
    @Interpolates.deeper _ _ _ '"' "x = ".toList [] _ _ [] ['\n'] (by decide +kernel) hinner
  have ht : ((unnamed "x = \"\x7bm[\"\x7ba\x7d\"]\x7d\"\n").tree .standard true).toOption.isSome = true := by
    decide +kernel
  obtain ⟨t, ht⟩ := Option.isSome_iff_exists.1 ht
  have ht := toOption_eq_some.1 ht
  obtain ⟨hiff, hsame⟩ := tree_padded (o := .standard) .builtIn hf hcode (List.forall_mem_nil _) hbehind h
  obtain ⟨t', ht'⟩ := hiff.2 ⟨rfl, t, ht⟩
  exact ⟨.builtIn, hf, hcode, hbehind, h, t, t', ht, ht', hsame t t' ht ht'⟩

/-- A story is not made plain any more if blanks are put around the code of its string. -/
theorem tree_padded_led :
    Interpolates (modeOf .standard .off) ['a'] [' ', 'a', ' '] "x = \"\x7ba\x7d\"\n".toList
      "x = \"\x7b a \x7d\"\n".toList ∧
    ((unnamed "x = \"\x7ba\x7d\"\n").tree .standard true).toOption.isSome = true ∧
    ((unnamed "x = \"\x7b a \x7d\"\n").tree .standard true).toOption.isSome = false := by
  have h : Interpolates (modeOf .standard .off) ['a'] [' ', 'a', ' '] "x = \"\x7ba\x7d\"\n".toList
      "x = \"\x7b a \x7d\"\n".toList :=
    @Interpolates.here _ _ _ '"' "x = ".toList [] [] ['\n'] (by decide +kernel)
  exact ⟨h, by decide +kernel, by decide +kernel⟩

end Story

end StoryLang
