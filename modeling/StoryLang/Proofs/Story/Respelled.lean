/-
The spelling of keywords is only spelling.

A story can be written with other words for its keywords, also in the code of
its strings, and compiled with a grammar that reads these words as the
keywords. All stages find in it what they find in the story as it was, so the
same is compiled, but for the lines of the story that its records show. Only a
type is known by its word: a keyword that is a type has to keep it.
-/
import StoryLang.Proofs.Grammar.Declared
import StoryLang.Proofs.Respell.Header
import StoryLang.Proofs.Respell.Writing
import StoryLang.Proofs.Story.Known

namespace StoryLang

open StoryLang.Tree (Like)

/-! ## Grammars and names -/

namespace Respell

variable {m m' : ScanMode} {spell : Keyword → String}

/-- An accepted grammar reads words as keywords. -/
theorem Respelling.of_accepted {g' : Grammar} (hs : m.grammar.Respells spell g') (hg : g'.Accepted) :
    Respelling m spell ⟨g', m.singleQuotes⟩ where
  words k := hg.isWord_of_keyword (hs.keyword k)
  grammar := hs
  quotes := rfl

/-- Whether no name in a text is one of the new words, as deep as so many steps lead into strings. -/
def isFree (m m' : ScanMode) : Nat → List Char → Bool
  | 0, _ => false
  | n + 1, text =>
    match (scan m text).tokens with
    | .error _ => true
    | .ok tokens => tokens.all fun t =>
      (t.kind ≠ .name || (m'.grammar.keyword? t.literal).isNone) &&
        (t.kind ≠ .string || (Pieces.split t.literal.toList).all fun p =>
          match p with
          | .code source _ => isFree m m' n source
          | _ => true)

theorem free_of_isFree {n : Nat} {text : List Char} (h : isFree m m' n text = true) :
    Free m m' text := by
  intro w hw
  induction hw generalizing n with
  | name scanned mem kind =>
    cases n with
    | zero => cases h
    | succ n =>
      simp only [isFree, scanned, List.all_eq_true, Bool.and_eq_true] at h
      simpa [kind] using (h _ mem).1
  | code scanned mem kind piece _ ih =>
    cases n with
    | zero => cases h
    | succ n =>
      simp only [isFree, scanned, List.all_eq_true, Bool.and_eq_true] at h
      have hpieces := (h _ mem).2
      simp only [kind, ne_eq, not_true_eq_false, decide_false, Bool.false_or, List.all_eq_true]
        at hpieces
      exact ih (hpieces _ piece)

/-- Whether every keyword that is a type is written as it is spelled. -/
def keepsTypes (spell : Keyword → String) (t : Tree) : Bool :=
  t.walk.all fun p =>
    match p with
    | .node .types _ ps => (Tree.firstTokenOf? ps).all fun u =>
      match u.kind with
      | .keyword k => spell k = u.literal
      | _ => true
    | _ => true

theorem typesKept_of_keepsTypes {t : Tree} (h : keepsTypes spell t = true) : t.TypesKept spell := by
  intro line ps hp u hu k hk
  have hu' := List.all_eq_true.1 h _ hp
  simpa [hu, hk] using hu'

end Respell

namespace Story

open Respell (Respelling Free)

/-- The story with every keyword spelled anew, also in the code of its strings. -/
def respelled (s : Story) (m : ScanMode) (spell : Keyword → String) : Story :=
  { s with source := String.ofList (Respell.text m spell s.source.toList) }

variable {s : Story} {o : Options} {f : Features} {spell : Keyword → String} {g' : Grammar}
  {c : CompiledStory}

theorem features_respelled {m : ScanMode} (hs : Respell.Words spell) :
    (s.respelled m spell).features { o with grammar := some g' } = s.features o := by
  simp only [features, respelled, String.toList_ofList, Respell.applyHeader_text hs]

/-- The plain tree of a text that is spelled anew says the same, if the keywords that are types
keep their words. -/
theorem hoisted_respelled {m m' : ScanMode} (hm : Respelling m spell m') (hg : m.grammar.KeepsLayout)
    (hg' : m'.grammar.KeepsLayout) {text : List Char} (hfree : Free m m' text) {ts : List Token} {t : Tree}
    (hts : (scan m text).tokens = .ok ts) (ht : hoistedTreeOf m ts = .ok t)
    (hkept : t.TypesKept spell) :
    ∃ ts' t', (scan m' (Respell.text m spell text)).tokens = .ok ts' ∧
      hoistedTreeOf m' ts' = .ok t' ∧ t.Same t' := by
  obtain ⟨ts', hts', hmatch⟩ := Respell.scan_respelt hm hfree hts
  obtain ⟨u, hu, hv⟩ := ok_of_bind ht
  obtain ⟨u', hu', hlike⟩ := Tree.ofTokens_like Respell.agrees_respelt hm.grammar hmatch
    (scan_ok hts).missingEnd (scan_ok hts').missingEnd hu
  obtain ⟨left, rfl, hformed, hbare⟩ := Hoist.story_plain hg hu hv
  obtain ⟨used, trees, -, rfl, hd⟩ := Tree.ofTokens_ok hg hu
  have hread := hd.formed (P := fun _ => True) fun _ _ => trivial
  obtain ⟨v', hv', hlike'⟩ := Respell.story_like hm hg hg' hlike (fun p hp => (hread p hp).2) hv
  refine ⟨ts', v', hts', ?_, Respell.same_of_like hlike' hformed hbare hkept⟩
  unfold hoistedTreeOf treeOf
  rw [hu']
  exact hv'

/-- What is compiled if no stage fails and no report is an error. -/
theorem compile_of_stages {ts : List Token} {t t' : Tree} {analysis : Analysis} (hf : s.features o = .ok f)
    (hts : (s.scanned (modeOf o f)).tokens = .ok ts) (ht : hoistedTreeOf (modeOf o f) ts = .ok t)
    (hcheck : Check.story f o.registry o.scope t = .ok (t', analysis))
    (hclean : ∀ d ∈ analysis.diagnostics, d.isError = false)
    (hc : CompiledStory.ofTree s.source t' analysis.services = .ok c) :
    (s.compile o).compiled = some { c with tree := if o.debugTree then some t' else none } := by
  -- the comments that are reported are no errors either
  have hhash : ∀ ps : List Position, (ps.map hashCommentReport).any (·.isError) = false := by
    intro ps
    rw [List.any_map]
    have hp (p : Position) : (hashCommentReport p).isError = false := rfl
    exact List.any_eq_false.2 fun p _ => by simp [hp]
  have hno : analysis.diagnostics.any (·.isError) = false :=
    List.any_eq_false.2 fun d hd => by simp [hclean d hd]
  have hstart : (Reports.start s.name s.source).hasErrors = false := rfl
  unfold compile
  simp only [hf, hts, ht]
  unfold check
  simp only [hcheck]
  unfold finish
  rw [if_neg (by simp [Reports.hasErrors_addAll, hstart, hhash, hno])]
  simp only [hc]
  rfl

example : ((unnamed "x = 1\n").compile .standard).compiled.isSome = true := by decide +kernel

/-- A story is compiled to the same with other words for the keywords, but for the lines of the
story, if no name in it is one of these words and the keywords that are types keep theirs. -/
theorem compile_respelled (hg : o.grammarInUse.Accepted) (hg' : g'.Accepted)
    (hs : o.grammarInUse.Respells spell g') (hf : s.features o = .ok f)
    (hfree : Free (modeOf o f) ⟨g', f.singleQuotes⟩ s.source.toList)
    {t : Tree} (ht : s.tree o true = .ok t) (hkept : t.TypesKept spell)
    (hc : (s.compile o).compiled = some c) :
    ∃ c', ((s.respelled (modeOf o f) spell).compile { o with grammar := some g' }).compiled = some c' ∧
      c'.unsourced = c.unsourced := by
  obtain ⟨f', ts, t₀, v, analysis, c₀, hf', hts, ht₀, hcheck, hscript, rfl⟩ := compile_stages hc
  obtain rfl := Except.ok.inj (hf.symm.trans hf')
  obtain rfl : t₀ = t := by simpa [tree, hf, hts, ht₀] using ht
  have hm : Respelling (modeOf o f) spell ⟨g', f.singleQuotes⟩ := .of_accepted hs hg'
  obtain ⟨ts', t', hts', ht', hsame⟩ :=
    hoisted_respelled hm hg.keepsLayout hg'.keepsLayout hfree hts ht₀ hkept
  -- both are checked alike
  have hplain := hoistedTreeOf_gives (m := modeOf o f) hg.keepsLayout hts
  rw [ht₀] at hplain
  obtain ⟨trees, lines, rfl, hplain⟩ := hplain
  have hchecked := hplain.checked f o.registry o.scope
  rw [hcheck] at hchecked
  obtain ⟨-, trees', rfl, hplain'⟩ := hchecked
  obtain ⟨v', analysis', hcheck', hsame', hservices, hseverities⟩ :=
    Check.story_same (fun p hp => (hplain.formed p hp).1) hsame hcheck
  have hclean' : ∀ d ∈ analysis'.diagnostics, d.isError = false := by
    have herrors : analysis'.diagnostics.map Diagnostic.isError =
        analysis.diagnostics.map Diagnostic.isError := by
      have hmap := congrArg (List.map fun severity => decide (severity = Severity.error)) hseverities
      rwa [List.map_map, List.map_map] at hmap
    have hclean := compile_clean hf hts ht₀ hcheck hc
    intro d hd
    have hmem := herrors ▸ List.mem_map_of_mem (f := Diagnostic.isError) hd
    obtain ⟨d', hd', hdd⟩ := List.mem_map.1 hmem
    exact hdd ▸ hclean d' hd'
  -- and both are written alike
  obtain ⟨c', hscript', hunsourced⟩ := CompiledStory.ofTree_same
    (s.respelled (modeOf o f) spell).source (fun p hp => (hplain'.formed p hp).1) hsame' hscript
  refine ⟨_, compile_of_stages (f := f) (c := c') ?_ ?_ ht' hcheck' hclean' ?_, hunsourced⟩
  · rw [features_respelled hm.words, hf]
  · simpa [scanned, respelled, modeOf, Options.grammarInUse] using hts'
  · rw [hservices]
    exact hscript'

end Story

/-! ## Three other words -/

namespace Respell

/-- Other words for three keywords, one of which can be a type. -/
def otherWord : Keyword → String
  | .ifWord => "given"
  | .notWord => "un"
  | .functionWord => "fn"
  | k => k.name

/-- The lines that declare these words, and the rest of the built-in grammar. -/
def otherLines : List (List Char) :=
  (Keyword.all.map fun k => "keyword ".toList ++ k.name.toList ++ ' ' :: (otherWord k).toList) ++
    ["operator 1 left or", "operator 2 left and", "operator 3 none == !=",
      "operator 4 none < <= > >=", "operator 5 left + -", "operator 6 left * / %",
      "operator 7 right ^", "unary 2 not", "unary 8 -", "cast 9",
      "reserved async story assert called mock",
      "type int float string boolean any object function regex time list map"].map String.toList

/-- The text of these lines. -/
def otherSource : String := String.ofList (['\n'].intercalate otherLines)

/-- The built-in grammar with these words. -/
def otherGrammar : Grammar :=
  { Grammar.builtIn with
    source := otherSource
    keywords := (Keyword.all.map fun k => (otherWord k, k)).reverse
    spellings := (Keyword.all.map fun k => (k, otherWord k)).reverse }

theorem readLines_otherSource :
    (Grammar.empty otherSource).readLines 1 (Text.lines otherSource.toList) = .ok otherGrammar := by
  have hlines : Text.lines otherSource.toList = otherLines := by
    rw [otherSource, String.toList_ofList]
    decide +kernel
  -- the long text is not compared with itself
  have hg : ((Grammar.empty otherSource).readLines 1 otherLines).toOption.map
      (fun g => { g with source := "" }) = some { otherGrammar with source := "" } := by
    decide +kernel
  obtain ⟨g, hg, hsame⟩ := Option.map_eq_some_iff.1 hg
  have hread := toOption_eq_some.1 hg
  have hrestored : { g with source := "" } = { otherGrammar with source := "" } := hsame
  rw [hlines, hread, show g = { ({ g with source := "" } : Grammar) with source := g.source } from rfl,
    hrestored, Grammar.readLines_source hread]
  rfl

theorem accepted_otherGrammar : otherGrammar.Accepted :=
  .spelled (Grammar.ofSource_ok readLines_otherSource (fun k => by cases k <;> decide) (by decide))

theorem respells_otherGrammar : Grammar.builtIn.Respells otherWord otherGrammar where
  keyword k := by cases k <;> decide
  operators := rfl
  castPrecedence := rfl
  reserved := rfl
  typeNames := rfl

end Respell

namespace Story

/-- A story with keywords in a condition and in the code of a string. -/
def conditioned : Story := unnamed "a = true\nif a\n  b = \"\x7bnot a\x7d\"\n"

/-- Its keywords are spelled anew where they are code. -/
theorem compile_respelled_code :
    Grammar.builtIn.Accepted ∧ Respell.otherGrammar.Accepted ∧
    Grammar.builtIn.Respells Respell.otherWord Respell.otherGrammar ∧
    conditioned.respelled (modeOf .standard .off) Respell.otherWord =
      unnamed "a = true\ngiven a\n  b = \"\x7bun a\x7d\"\n" ∧
    conditioned.features .standard = .ok .off ∧
    Respell.Free (modeOf .standard .off) ⟨Respell.otherGrammar, false⟩ conditioned.source.toList ∧
    ∃ t c c', conditioned.tree .standard true = .ok t ∧ t.TypesKept Respell.otherWord ∧
      (conditioned.compile .standard).compiled = some c ∧
      ((conditioned.respelled (modeOf .standard .off) Respell.otherWord).compile
        { Options.standard with grammar := some Respell.otherGrammar }).compiled = some c' ∧
      c'.unsourced = c.unsourced := by
  have hg' := Respell.accepted_otherGrammar
  have hnew : conditioned.respelled (modeOf .standard .off) Respell.otherWord =
      unnamed "a = true\ngiven a\n  b = \"\x7bun a\x7d\"\n" := by
    decide +kernel
  have hf : conditioned.features .standard = .ok .off := by
    decide +kernel
  have hfree : Respell.Free (modeOf .standard .off) ⟨Respell.otherGrammar, false⟩ conditioned.source.toList := by
    have hnames : Respell.isFree (modeOf .standard .off) ⟨Respell.otherGrammar, false⟩ 2
        conditioned.source.toList = true := by
      decide +kernel
    exact Respell.free_of_isFree hnames
  have ht : ((conditioned.tree .standard true).toOption.any
      (Respell.keepsTypes Respell.otherWord)) = true := by
    decide +kernel
  have hc : (conditioned.compile .standard).compiled.isSome = true := by
    decide +kernel
  obtain ⟨t, ht, hkept⟩ := (Option.any_eq_true _ _).1 ht
  obtain ⟨c, hc⟩ := Option.isSome_iff_exists.1 hc
  have htree := toOption_eq_some.1 ht
  have hkept := Respell.typesKept_of_keepsTypes hkept
  obtain ⟨c', hc', hsame⟩ := compile_respelled (o := .standard) .builtIn hg' Respell.respells_otherGrammar
    hf hfree htree hkept hc
  exact ⟨.builtIn, hg', Respell.respells_otherGrammar, hnew, hf, hfree, t, c, c', htree, hkept, hc, hc',
    hsame⟩

/-- A type that is a keyword is not known by another word. -/
theorem compile_respelled_type :
    Respell.otherGrammar.Accepted ∧
    Grammar.builtIn.Respells Respell.otherWord Respell.otherGrammar ∧
    (unnamed "function f x:function\n    y = 1\n").respelled (modeOf .standard .off) Respell.otherWord =
      unnamed "fn f x:fn\n    y = 1\n" ∧
    Respell.Free (modeOf .standard .off) ⟨Respell.otherGrammar, false⟩
      (unnamed "function f x:function\n    y = 1\n").source.toList ∧
    ((unnamed "function f x:function\n    y = 1\n").compile .standard).compiled.isSome = true ∧
    ((unnamed "fn f x:fn\n    y = 1\n").compile
      { Options.standard with grammar := some Respell.otherGrammar }).compiled.isSome = false := by
  have hnew : (unnamed "function f x:function\n    y = 1\n").respelled (modeOf .standard .off)
      Respell.otherWord = unnamed "fn f x:fn\n    y = 1\n" := by
    decide +kernel
  have hfree : Respell.isFree (modeOf .standard .off) ⟨Respell.otherGrammar, false⟩ 1
      (unnamed "function f x:function\n    y = 1\n").source.toList = true := by
    decide +kernel
  have hc : ((unnamed "function f x:function\n    y = 1\n").compile .standard).compiled.isSome = true := by
    decide +kernel
  have hc' : ((unnamed "fn f x:fn\n    y = 1\n").compile
      { Options.standard with grammar := some Respell.otherGrammar }).compiled.isSome = false := by
    decide +kernel
  exact ⟨Respell.accepted_otherGrammar, Respell.respells_otherGrammar, hnew, Respell.free_of_isFree hfree, hc,
    hc'⟩

end Story

end StoryLang
