/-
Stories from their text to their plain tree.

The tokens of a text follow each other, so what is read from them has its
lines in order. Making it plain keeps every statement formed, and puts what it
takes out between the line before and the statement that needs it.

A block is left with all of its statements, and what is taken out of one of
them stays in the block. The code of a string is of one line and has no block.
So a story that was made plain has no empty block.

Each variable of what was taken out is assigned once, and read once by a later
statement of the same list. Where only single calls were taken out, putting
their values back gives the story that was read.
-/
import Mathlib.Data.List.Nodup
import StoryLang.Proofs.Grammar.Declared
import StoryLang.Proofs.Hoist.Outline
import StoryLang.Proofs.Hoist.Placement
import StoryLang.Proofs.Hoist.Plain
import StoryLang.Proofs.Hoist.Restore
import StoryLang.Proofs.Hoist.Sound
import StoryLang.Proofs.Tree.Blocks
import StoryLang.Story.Basic

/-! # A story that was made plain has no empty block -/

namespace StoryLang.Hoist
variable {m : ScanMode} {v : Tree} {base : Nat} {cs : List Coord} {before left : List Tree}
  {rule : Rule} {line : Option Coord} {ps ps' : List Tree}

open StoryLang.Tree (FilledAll filledAll_iff filled_other filled_node)

theorem filled_reading (c : Coord) (v : Tree) : (reading c v).Filled := by
  simp [reading, Coord.path, Tree.of, filled_other]

theorem filled_assignment {c : Coord} : (c.assignment v).Filled ↔ v.Filled := by
  simp [Coord.assignment, Coord.path, Tree.of, filled_other]

theorem filled_linkParts {fragment : Tree} (h : fragment.Filled) : FilledAll (linkParts fragment) :=
  filledAll_iff.2 fun p hp => filledAll_iff.1 h.parts p (List.mem_filter.1 hp).1

theorem filled_mutationOf {subject fragment : Tree} (hs : subject.Filled) (hf : fragment.Filled) :
    (mutationOf subject fragment).Filled := by
  have hl := filled_linkParts hf
  simp [mutationOf, Tree.of, filled_other, hs, hl]

theorem filled_firstLink {subject fragment : Tree} (hs : subject.Filled) (hf : fragment.Filled) :
    (firstLink subject fragment).Filled := by
  have hl := filled_linkParts hf
  unfold firstLink
  split
  · simp [Tree.of, filled_other, hs, hl]
  · exact filled_mutationOf hs hf

theorem filled_sum (place : Position) {first : Tree} {rest : List Tree} (h : first.Filled)
    (hr : FilledAll rest) : (sum place first rest).Filled := by
  induction rest generalizing first with
  | nil => exact h
  | cons next rest ih =>
    simp only [Tree.filledAll_cons] at hr
    exact ih (by simp [Tree.of, filled_other, h, hr.1]) hr.2

/-- What is read from the code of a string has no block. -/
theorem filled_code (hg : m.grammar.KeepsLayout) {source : List Char} {start : Position}
    (h : readCode m source start = .ok v) : v.Filled := by
  obtain ⟨tokens, used, -, -, hd⟩ := readCode_derives hg h
  have hflat := hd.flat hg rfl
  have ha : Apart used := .of_noIndent fun u hu hk => by simpa [hk, TokenKind.isLayout] using hflat u hu
  simpa using hd.filled ha

/-- What becomes of a job without empty lists. -/
def Job.Fills (before left : List Tree) : Job → Prop
  | .chain link subject fragments =>
    (∀ s f : Tree, s.Filled → f.Filled → (link s f).Filled) →
      FilledAll (subject :: fragments) → FilledAll (before ++ left)
  | job => FilledAll job.input → FilledAll (before ++ left)

/-- A node with the parts that are left of its own. -/
theorem filled_left (h : FilledAll ps → FilledAll (before ++ ps')) (hl : ps'.length = ps.length)
    (hf : (Tree.node rule line ps).Filled) : FilledAll (before ++ [.node rule line ps']) := by
  obtain ⟨hne, hps⟩ := filled_node.1 hf
  have hleft := h hps
  simp only [Tree.filledAll_append, Tree.filledAll_cons, Tree.filledAll_nil, and_true,
    filled_node] at hleft ⊢
  refine ⟨hleft.1, fun hr hnil => hne hr ?_, hleft.2⟩
  simpa [hnil, eq_comm] using hl

theorem Hoists.filled (hg : m.grammar.KeepsLayout) {job : Job} (h : Hoists m base job cs before left) :
    job.Fills before left := by
  induction h with
  | token | none | noPieces | noStatements => simp [Job.Fills, Job.input]
  | cons first others ih ih' =>
    intro hf
    simp only [Job.Fills, Job.input, List.map_cons, Tree.filledAll_cons, Tree.filledAll_append,
      Tree.filledAll_nil, and_true] at ih ih' hf ⊢
    have h := ih hf.1
    have h' := ih' hf.2
    exact ⟨⟨h.1, h'.1⟩, h.2, h'.2⟩
  | keep keeps parts ih =>
    intro hf
    simp only [Job.Fills, Job.input, keeps.parts_eq] at ih
    refine filled_left ih ?_ (by simpa [Job.input] using hf)
    rw [parts.length_row, ← keeps.parts_eq, List.length_map]
  | guarded h parts ih =>
    intro hf
    simp only [Job.Fills, Job.input, List.map_map, Function.comp_def, List.map_id'] at ih
    exact filled_left ih (by simp [parts.length_row]) (by simpa [Job.input] using hf)
  | chain h parts links ih ih' =>
    intro hf
    simp only [Job.Fills, Job.input, List.map_cons, List.map_map, Function.comp_def, List.map_id',
      Tree.filledAll_append, Tree.filledAll_cons, Tree.filledAll_nil, and_true,
      filled_other (r := .mutation) ⟨by simp, by simp⟩] at ih ih' hf ⊢
    have h := ih hf
    have h' := ih' (fun _ _ => filled_firstLink) h.2
    exact ⟨⟨h.1, h'.1⟩, h'.2⟩
  | out h whole ih =>
    intro hf
    simpa [filled_assignment, filled_reading] using ih hf
  | block h statements ih =>
    intro hf
    obtain ⟨hne, hps⟩ := filled_node.1 (show Tree.Filled _ by simpa [Job.input] using hf)
    have hleft := ih hps
    simp only [List.nil_append, Tree.filledAll_cons, Tree.filledAll_nil, and_true] at hleft ⊢
    refine filled_node.2 ⟨fun hr => ?_, hleft⟩
    cases statements with
    | noStatements => exact hne hr
    | statements => simp
  | lastLink =>
    intro _ hf
    simp only [Tree.filledAll_cons, Tree.filledAll_nil, and_true, List.nil_append] at hf ⊢
    exact filled_mutationOf hf.1 hf.2
  | link others ih =>
    intro hl hf
    simp only [Job.Fills, Tree.filledAll_append, List.cons_append, Tree.filledAll_cons, Tree.filledAll_nil, and_true,
      filled_assignment] at ih hf ⊢
    exact ⟨hl _ _ hf.1 hf.2.1, ih (fun _ _ => filled_mutationOf) ⟨filled_reading _ _, hf.2.2⟩⟩
  | plainString h text => exact id
  | string h hasCode pieces ih =>
    intro _
    have hleft := ih (by simp [Job.input])
    simp only [Tree.filledAll_append, Tree.filledAll_cons, Tree.filledAll_nil, and_true] at hleft ⊢
    exact ⟨hleft.1, filled_sum _ hleft.2.1 hleft.2.2⟩
  | text others ih =>
    intro hf
    simpa [Tree.of, filled_other] using ih hf
  | piece read code others ih ih' =>
    intro hf
    have h := ih (by simpa [Job.input] using filled_code hg read)
    have h' := ih' hf
    simp only [castToString, Tree.of, Tree.filledAll_append, Tree.filledAll_cons,
      Tree.filledAll_nil, Tree.filled_token, filled_node, reduceCtorEq, or_self, false_imp_iff,
      true_and, and_true] at h h' ⊢
    exact ⟨⟨h.1, h'.1⟩, h.2, h'.2⟩
  | codePath path whole ih => exact ih
  | codeOut noPath whole ih =>
    intro hf
    simpa [filled_assignment, filled_reading] using ih hf
  | statements first others ih ih' =>
    intro hf
    simp only [Job.input, Tree.filledAll_cons] at hf
    have h := ih (by simpa [Job.input] using hf.1)
    have h' := ih' hf.2
    simp only [List.nil_append, Tree.filledAll_append, Tree.filledAll_cons, Tree.filledAll_nil,
      and_true] at h h' ⊢
    exact ⟨h.1, h.2, h'⟩

end StoryLang.Hoist

/-! # From the text to the plain tree -/

namespace StoryLang

variable {g : Grammar} {m : ScanMode} {text : List Char} {tokens used : List Token}
  {trees : List Tree}

/-- Statements that the tokens of some text spell. -/
structure WasRead (g : Grammar) (used : List Token) (trees : List Tree) : Prop where
  derived : Derives g .statements used trees
  order : used.Pairwise Token.Follows
  valid : ∀ u ∈ used, u.Valid
  apart : Apart used

namespace WasRead

theorem sound (h : WasRead g used trees) : ∀ u ∈ used, u.Sound :=
  fun u hu => (h.valid u hu).sound

theorem formed (h : WasRead g used trees) :
    ∀ t ∈ trees, Formed Token.Sound g .read t ∧ t.isStatement = true :=
  fun t ht => (h.derived.formed h.sound t ht).symm

/-- The lines of statements and branches increase, and there are tokens on them. -/
theorem lines (h : WasRead g used trees) (hg : g.KeepsLayout) : ∃ ls : List Nat,
    (Tree.stationsAll true trees).map Tree.line? = ls.map (some ∘ Coord.ofLine) ∧
      ls.Pairwise (· < ·) ∧ ∀ l ∈ ls, ∃ u ∈ used, u.kind.isLayout = false ∧ u.line = l := by
  have hl : Lined used (Tree.stationsAll true trees) := h.derived.outlines hg h.sound
  exact hl.increasing h.order

end WasRead

/-- A tree whose values are plain and whose blocks have statements, with the
coordinates of its statements and branches. -/
structure IsPlain (g : Grammar) (trees : List Tree) (lines : List Coord) : Prop where
  formed : ∀ t ∈ trees, Formed Token.Sound g .plain t ∧ t.isStatement = true
  filled : Tree.FilledAll trees
  outline : (Tree.of .start trees).outline = lines.map some
  order : lines.Pairwise (· < ·)

/-- What is left of statements that were read is plain. -/
theorem WasRead.isPlain (h : WasRead m.grammar used trees) (hg : m.grammar.KeepsLayout)
    {base : Nat} {cs : List Coord} {left : List Tree} {i i' : Issued} (hr : i.Runs cs i')
    (hh : Hoist.Hoists m base (.statements trees) cs [] left) :
    ∃ lines, IsPlain m.grammar left lines := by
  obtain ⟨ls, hls, hlt, hmem⟩ := h.lines hg
  have hpos : ∀ l ∈ ls, 1 ≤ l := fun l hl =>
    have ⟨u, hu, _, hline⟩ := hmem l hl
    hline ▸ (h.valid u hu).place.1
  obtain ⟨-, hmade⟩ := hh.made hg (fun _ => id) h.formed
  obtain ⟨lines, hlines, hinc, -⟩ :=
    (hh.raised hg h.formed hr.increasing hr.synthetic).increasing ls hls hlt hpos
  exact ⟨lines, hmade, hh.filled hg (h.derived.filled h.apart), hlines, hinc⟩

namespace Story

theorem treeOf_gives (hg : m.grammar.KeepsLayout) (hs : (scan m text).tokens = .ok tokens) :
    match treeOf m tokens with
    | .ok t => ∃ used trees, t = .of .start trees ∧ WasRead m.grammar used trees ∧ used ⊆ tokens
    | .error f => f.OfStory := by
  have hapart := scan_apart hs
  have hs := scan_ok hs
  unfold treeOf
  split
  · rename_i t ht
    obtain ⟨used, trees, hp, rfl, hd⟩ := Tree.ofTokens_ok hg ht
    rw [hs.missingEnd, List.append_nil] at hp
    exact ⟨used, trees, rfl, ⟨hd, hs.order.sublist hp.sublist,
      fun u hu => hs.valid u (hp.subset hu), hapart.front hp⟩, hp.subset⟩
  · rename_i f hf
    exact Tree.ofTokens_error hg hf

theorem hoistedTreeOf_gives (hg : m.grammar.KeepsLayout)
    (hs : (scan m text).tokens = .ok tokens) :
    match hoistedTreeOf m tokens with
    | .ok t => ∃ trees lines, t = .of .start trees ∧ IsPlain m.grammar trees lines
    | .error f => f.OfStory := by
  have hread := treeOf_gives hg hs
  simp only [hoistedTreeOf, Bind.bind, Except.bind]
  cases ht : treeOf m tokens with
  | error f => rwa [ht] at hread
  | ok t =>
    rw [ht] at hread
    obtain ⟨used, trees, rfl, hr, -⟩ := hread
    have hnode : ∀ t ∈ trees, t.isNode = true ∧ Formed Token.Sound m.grammar .read t := by
      intro t ht
      obtain ⟨hf, hst⟩ := hr.formed t ht
      exact ⟨Tree.isNode_of_isStatement hst, hf⟩
    have hdoes := Hoist.story_does hg hnode
    dsimp only
    cases hok : Hoist.story m (.of .start trees) with
    | ok t =>
      rw [hok] at hdoes
      obtain ⟨cs, left, i, rfl, hruns, hh⟩ := hdoes
      obtain ⟨lines, hp⟩ := hr.isPlain hg hruns hh
      exact ⟨left, lines, rfl, hp⟩
    | error f =>
      rw [hok] at hdoes
      exact hdoes

end Story

end StoryLang

/-! ## The variables of what was taken out -/

namespace StoryLang

namespace Hoist

variable {n : String} {c : Coord} {cs : List Coord}

theorem issuedAs_variable (hd : cs.Nodup) (hc : c ∈ cs) : issuedAs c.variable cs = 1 := by
  rw [← List.count_eq_one_of_mem hd hc, issuedAs, List.count]
  refine List.countP_congr fun d _ => ?_
  simp only [decide_eq_true_eq, beq_iff_eq]
  exact ⟨Coord.variable_inj, fun h => h ▸ rfl⟩

theorem exists_of_issuedAs (h : issuedAs n cs ≠ 0) : ∃ c ∈ cs, c.variable = n := by
  obtain ⟨c, hc, hn⟩ := List.countP_pos_iff.1 (Nat.pos_of_ne_zero h)
  exact ⟨c, hc, by simpa using hn⟩

/-- A variable is assigned once in a story, and read once, in the list of its assignment. -/
structure UsedOnce (t : Tree) (c : Coord) : Prop where
  assigned : t.assigned c.variable = 1
  read : t.reads c.variable = 1
  place : ∃ list ∈ t.lists, ReadIn c list

end Hoist

namespace Story

open Hoist

/-- Every name of a plain story that no text can have is the variable of a
coordinate and used once; and a story of which nothing came apart is what its
plain story is with all values put back. -/
theorem hoisted_usedOnce {m : ScanMode} (hg : m.grammar.Accepted) {text : List Char}
    {tokens : List Token} {t t' : Tree} (hs : (scan m text).tokens = .ok tokens)
    (ht : treeOf m tokens = .ok t) (h : Hoist.story m t = .ok t') :
    (∀ n, isIssuedName n = true → t'.occurs n ≠ 0 →
      ∃ c : Coord, c.isSynthetic = true ∧ n = c.variable ∧ UsedOnce t' c) ∧
    (t.Simple → t'.restored = t) := by
  have hread := treeOf_gives hg.keepsLayout hs
  rw [ht] at hread
  obtain ⟨used, trees, rfl, hr, -⟩ := hread
  have hformed := hr.formed
  obtain ⟨cs, left, i, rfl, hruns, hh⟩ := story_does_any hg.keepsLayout
    (fun t ht => ⟨Tree.isNode_of_isStatement (hformed t ht).2, (hformed t ht).1⟩) h
  have hsynthetic := hruns.synthetic
  have hquiet : ∀ n, isIssuedName n = true → Tree.occursAll n trees = 0 := fun n hn =>
    Tree.occursAll_sound (fun u hu => hr.sound u (hr.derived.yield_subset u hu)) hn
  refine ⟨fun n hn hoccurs => ?_, fun hsimple => ?_⟩
  · have htally := hh.tally hg.keepsLayout hn hformed (hquiet n hn)
    have ho : (Tree.of .start left).occurs n = 2 * issuedAs n cs := by
      have := htally.occurs
      rwa [Job.input, hquiet n hn, Nat.zero_add] at this
    have ha : (Tree.of .start left).assigned n = issuedAs n cs := by
      have := htally.assigned
      have hzero := Nat.le_zero.1 (hquiet n hn ▸ Tree.assignedAll_le_occursAll trees)
      rwa [Job.input, hzero, Nat.zero_add, List.nil_append,
        ← Tree.assigned_other (show Rule.start ≠ .assignment by simp)] at this
    have hissued : issuedAs n cs ≠ 0 := fun h0 => hoccurs (by rw [ho, h0])
    obtain ⟨c, hc, rfl⟩ := exists_of_issuedAs hissued
    have hone := issuedAs_variable hruns.nodup hc
    refine ⟨c, hsynthetic c hc, rfl, ?_, ?_, ?_⟩
    · rw [ha, hone]
    · rw [Tree.reads, ho, ha, hone]
    · obtain ⟨list, hl, hread⟩ := hh.places hg.keepsLayout (fun _ => id) hformed hsynthetic c hc
      exact ⟨list, by rwa [Tree.lists_holds (.inr rfl)], hread⟩
  · have hw : (Job.statements trees).Whole :=
      ⟨hquiet, (Tree.simple_node.1 hsimple).2⟩
    have hrestore := hh.restores hg.keepsLayout (fun _ => id) hformed hw
      hruns.variables_nodup (fun _ => none) fun _ _ => rfl
    rw [Tree.restored, hrestore]

/-- A call in a condition, and one in a list in its block. -/
theorem hoisted_usedOnce_block : Grammar.builtIn.Accepted ∧ ∃ tokens t t',
    (scan ⟨.builtIn, false⟩ "if (a f)\n    x = [(s c)]\n".toList).tokens = .ok tokens ∧
      treeOf ⟨.builtIn, false⟩ tokens = .ok t ∧ Hoist.story ⟨.builtIn, false⟩ t = .ok t' ∧
      (∀ n, isIssuedName n = true → t'.occurs n ≠ 0 →
        ∃ c : Coord, c.isSynthetic = true ∧ n = c.variable ∧ UsedOnce t' c) ∧
      t.Simple ∧ t'.restored = t ∧ t'.restored ≠ t' := by
  have h : ((scan ⟨.builtIn, false⟩ "if (a f)\n    x = [(s c)]\n".toList).tokens.toOption.bind
      fun tokens => (treeOf ⟨.builtIn, false⟩ tokens).toOption.bind fun t =>
        (Hoist.story ⟨.builtIn, false⟩ t).toOption.bind fun t' =>
          if t.Simple ∧ t.parts.length ≠ t'.parts.length then some t' else none).isSome = true := by
    decide +kernel
  obtain ⟨_, h⟩ := Option.isSome_iff_exists.1 h
  obtain ⟨tokens, hs, h⟩ := Option.bind_eq_some_iff.1 h
  obtain ⟨t, ht, h⟩ := Option.bind_eq_some_iff.1 h
  obtain ⟨t', h, hsimple⟩ := Option.bind_eq_some_iff.1 h
  obtain ⟨hsimple, hlength⟩ := (Option.ite_none_right_eq_some.1 hsimple).1
  rw [toOption_eq_some] at hs ht h
  obtain ⟨hused, hrestored⟩ := @hoisted_usedOnce ⟨.builtIn, false⟩ .builtIn _ _ _ _ hs ht h
  have hback := hrestored hsimple
  exact ⟨.builtIn, tokens, t, t', hs, ht, h, hused, hsimple, hback, by
    rw [hback]
    rintro rfl
    exact hlength rfl⟩

end Story

end StoryLang
