/-
Making stories plain with other words for the keywords.

The code in a string is spelled anew along with the story around it, and is
read as the same value. Where reading stops does not matter: what can be read
can be read with the other words, too, and has the same nodes.

In a plain tree the text of a keyword tells nothing, save where the keyword is
a type, and no string has code that could be spelled anew. So if the keywords
that are types keep their text, what is left of a story and what is left of
the story spelled anew say the same.
-/
import StoryLang.Proofs.Hoist.Alike
import StoryLang.Proofs.Respell.Scan
import StoryLang.Proofs.Respell.Text
import StoryLang.Proofs.Tree.Together

/-! ## Reading tokens -/

namespace StoryLang

variable {R : Token → Token → Prop} {g g' : Grammar} {spell : Keyword → String}
  {ts ts' : List Token} {t : Tree} (hR : Token.Agrees R) (hg : g.Respells spell g')

include hR hg

theorem Read.setting_respells : Read.StorySetting R (fun _ _ => True) g g' where
  tokens := hR.toReadsAs
  operators := hg.operators
  castPrecedence := hg.castPrecedence
  reserved := hg.reserved
  typeNames := hg.typeNames
  stuck _ _ := trivial
  refused _ _ := trivial
  bounded := trivial

namespace Tree

/-- Related tokens are read as such trees. -/
theorem ofTokens_like (h : List.Forall₂ R ts ts') (he : Cursor.missingEnd ts = [])
    (he' : Cursor.missingEnd ts' = []) (ht : ofTokens g ts = .ok t) :
    ∃ t', ofTokens g' ts' = .ok t' ∧ t.Like R Tree.Named t' :=
  (ofTokens_together (Read.setting_respells hR hg) h he he').exists_ok ht

end Tree

end StoryLang

namespace StoryLang

open StoryLang.Tree (Named)

namespace Respell

variable {m m' : ScanMode} {spell : Keyword → String}

theorem agrees_spelt : Token.Agrees (Spelt m spell) where
  kind _ _ h := h.kind
  line _ _ h := h.line
  name _ _ h hk := h.other (by simp [hk]) (by simp [hk])

theorem agrees_respelt : Token.Agrees (Respelt m spell m') where
  kind _ _ h := h.kind
  line _ _ h := h.line
  name _ _ h := agrees_spelt.name _ _ h.toSpelt

theorem code_reworded (hm : Respelling m spell m') (source : List Char) :
    Text.Reworded false source (text m spell source) :=
  text_reworded hm.words source false (by simp)

/-- A token that is put into a story, and the one in its place. -/
theorem spelt_made (m : ScanMode) (spell : Keyword → String) {kind : TokenKind} {literal : String}
    {p p' : Position} (hc : kind = .string → Pieces.hasCode literal.toList = false)
    (hl : p'.line = p.line) : Spelt m spell ⟨kind, literal, p⟩ ⟨kind, literal, p'⟩ where
  kind := rfl
  line := hl
  keyword _ _ := .inr rfl
  string hk := (Pieces.recode_text (hc hk)).symm
  other _ _ := rfl

theorem carries (m : ScanMode) (spell : Keyword → String) (m' : ScanMode) :
    Hoist.Carries (Respelt m spell m') (Spelt m spell) where
  before := agrees_respelt
  after := agrees_spelt
  keeps _ _ h := h.toSpelt
  made _ _ _ _ := spelt_made m spell

theorem Respelt.moved {start start' : Position} {t t' : Token} (h : Respelt m spell m' t t')
    (hs : start'.line = start.line) :
    Respelt m spell m' (Hoist.moved start t) (Hoist.moved start' t') :=
  { kind := h.kind
    line := Hoist.line_shift hs h.line
    keyword := h.keyword
    string := h.string
    other := h.other
    free := ⟨h.free.name, h.free.code⟩ }

/-- The code of a string is read as the same value. -/
theorem readAlike (hm : Respelling m spell m') {source : List Char} (hfree : Free m m' source) :
    Hoist.ReadAlike m m' (Respelt m spell m') source (text m spell source) :=
  Hoist.ReadAlike.of_scan (Read.setting_respells agrees_respelt hm.grammar).toSetting Respelt.moved (scan_respelt hm hfree)

theorem sources (hm : Respelling m spell m') :
    Hoist.Sources m m' (Respelt m spell m') (Spelt m spell) where
  carries := carries m spell m'
  pieces t t' ht hk := by
    have hsplit := Pieces.split_recode (code_reworded hm) t.literal.toList
    rw [← ht.string hk] at hsplit
    refine (List.forall₂_and_left _ _ |>.2 ⟨fun p hp => hp, hsplit⟩).imp fun p p' hp => ?_
    obtain ⟨hp, halike⟩ := hp
    cases halike with
    | text raw => exact .text raw
    | code related offset offset' =>
      subst related
      exact .code (readAlike hm (ht.free.code hk _ _ hp)) offset offset'

/-- A story that was read is made plain in the same way. -/
theorem story_like (hm : Respelling m spell m') (hg : m.grammar.KeepsLayout)
    (hg' : m'.grammar.KeepsLayout) {P : Token → Prop} {ps : List Tree} {t' v : Tree}
    (h : (Tree.of .start ps).Like (Respelt m spell m') Named t')
    (hf : ∀ p ∈ ps, Formed P m.grammar .read p) (hv : Hoist.story m (.of .start ps) = .ok v) :
    ∃ v', Hoist.story m' t' = .ok v' ∧ v.Like (Spelt m spell) Named v' :=
  Hoist.story_alike (sources hm) hg hg' h hf hv

end Respell

end StoryLang

/-! # Plain trees that say the same -/

namespace StoryLang

/-- The tokens differ at most in the text of a keyword or a string, and in their columns. -/
structure Token.Same (t t' : Token) : Prop where
  kind : t'.kind = t.kind
  line : t'.line = t.line
  literal : (∀ k, t.kind ≠ .keyword k) → t.kind ≠ .string → t'.literal = t.literal

theorem Token.agrees_same : Token.Agrees Token.Same where
  kind _ _ h := h.kind
  line _ _ h := h.line
  name _ _ h hk := h.literal (by simp [hk]) (by simp [hk])

namespace Tree

/-- The tokens have the same text. -/
def SameText (t t' : Token) : Prop := t'.literal = t.literal

/-- Nodes with a text that is read start with the same text, and types are made of types. -/
structure Worded (r : Rule) (ps ps' : List Tree) : Prop where
  head : r.isNamed = true ∨ r = .string → Heads SameText ps ps'
  types : r = .types → ∀ p ∈ ps.tail, p.isA .types = true

theorem Worded.other {r : Rule} (hr : r.isNamed = false ∧ r ≠ .string) (ps ps' : List Tree) :
    Worded r ps ps' where
  head h := absurd h (by simp [hr])
  types h := absurd hr.1 (by simp [h, Rule.isNamed])

/-- The trees say the same. -/
abbrev Same : Tree → Tree → Prop := Like Token.Same Worded

/-- Every keyword that is a type is written as it is spelled. -/
def TypesKept (spell : Keyword → String) (t : Tree) : Prop :=
  ∀ line ps, .node .types line ps ∈ t.walk → ∀ u, firstTokenOf? ps = some u →
    ∀ k, u.kind = .keyword k → spell k = u.literal

end Tree

open StoryLang.Tree (Like LikeAll Named SameText Worded)

namespace Respell

variable {m m' : ScanMode} {spell : Keyword → String} {P : Token → Prop} {g : Grammar}

theorem Spelt.same {t t' : Token} (h : Spelt m spell t t') : Token.Same t t' :=
  ⟨h.kind, h.line, h.other⟩

/-- The word that a type starts with stays as it is. -/
theorem Spelt.typeWord {t t' : Token} (h : Spelt m spell t t')
    (hw : Tree.SameWord .types t t') (hk : ∀ k, t.kind = .keyword k → spell k = t.literal) :
    SameText t t' := by
  rcases hw with hw | ⟨-, hw⟩
  · exact hw
  · rcases h.keyword _ hw with hs | hs
    · exact hs.trans (hk _ hw)
    · exact hs

/-- The text of a string without code stays as it is. -/
theorem Spelt.plainString {t t' : Token} (h : Spelt m spell t t') (hk : t.kind = .string)
    (hc : Pieces.hasCode t.literal.toList = false) : SameText t t' := by
  have hs := h.string hk
  rw [Pieces.recode_text hc] at hs
  exact String.toList_injective hs

/-- A row of parts of a bare node of a plain tree. -/
theorem worded_row {r : Rule} {line : Option Coord} {ps ps' : List Tree}
    (hrow : Named r ps ps') (hparts : LikeAll (Spelt m spell) Named ps ps')
    (hcontent : Content P g .plain r ps) (hbare : (Tree.node r line ps).BareNode)
    (hkept : r = .types → ∀ u, Tree.firstTokenOf? ps = some u →
      ∀ k, u.kind = .keyword k → spell k = u.literal) : Worded r ps ps' where
  head hr := by
    by_cases hs : r = .string
    · subst hs
      cases hcontent with
      | @string _ u kind =>
        obtain ⟨_, _, hu, hnil, rfl⟩ := List.forall₂_cons_left_iff.1 hparts
        obtain rfl := List.forall₂_nil_left_iff.1 hnil
        cases hu with
        | token related =>
          exact ⟨u, [], _, [], rfl, rfl,
            related.plainString kind (hbare.noCode rfl u (by simp [Tree.parts]))⟩
    · obtain ⟨u, ts, u', ts', rfl, rfl, hu⟩ := hrow (hr.resolve_right hs)
      refine ⟨u, ts, u', ts', rfl, rfl, ?_⟩
      by_cases ht : r = .types
      · subst ht
        cases hparts with
        | cons first rest =>
          cases first with
          | token related => exact related.typeWord hu (hkept rfl u rfl)
      · exact hu.resolve_right fun h => ht h.1
  types ht := by
    subst ht
    cases hcontent with
    | types _ each => exact each

/-- What is left of a story says the same if the keywords that are types are left alone. -/
theorem same_of_like {left : List Tree} {line : Option Coord} {v' : Tree}
    (h : (Tree.node .start line left).Like (Spelt m spell) Named v')
    (hf : ∀ p ∈ left, Formed P g .plain p) (hb : ∀ p ∈ left, p.Bare)
    (hk : (Tree.node .start line left).TypesKept spell) : (Tree.node .start line left).Same v' := by
  refine Like.imp _ _ h (fun u _ u' _ hu => hu.same) fun r l ps ps' hps _ hrow hparts => ?_
  by_cases hs : r = .start
  · subst hs
    exact .other ⟨rfl, by simp⟩ _ _
  · simp only [Tree.walk, Tree.walkAll_eq, List.mem_cons, List.mem_flatMap] at hps
    obtain ⟨p, hp, hn⟩ := hps.resolve_left fun he => hs (Tree.node.inj he).1
    cases (hf p hp).of_mem_walk _ hn with
    | node content _ _ =>
      refine worded_row hrow hparts content (hb p hp _ hn) ?_
      rintro rfl
      refine hk l ps ?_
      simp only [Tree.walk, Tree.walkAll_eq, List.mem_cons, List.mem_flatMap]
      exact .inr ⟨p, hp, hn⟩

end Respell

/-- What is left of a story that was read is plain and bare. -/
theorem Hoist.story_plain {m : ScanMode} (hg : m.grammar.KeepsLayout) {tokens : List Token}
    {t t' : Tree} (ht : Tree.ofTokens m.grammar tokens = .ok t) (h : story m t = .ok t') :
    ∃ left, t' = .of .start left ∧ (∀ p ∈ left, Formed (fun _ => True) m.grammar .plain p) ∧
      ∀ p ∈ left, p.Bare := by
  obtain ⟨trees, cs, left, i, rfl, rfl, -, hformed, -, hh⟩ := story_hoists hg ht h
  obtain ⟨-, hplain⟩ := hh.made hg (fun _ _ => trivial) hformed
  obtain ⟨-, hbare⟩ := hh.bares hg (fun _ _ => trivial) hformed
  exact ⟨left, rfl, fun p hp => (hplain p hp).1, hbare⟩

end StoryLang
