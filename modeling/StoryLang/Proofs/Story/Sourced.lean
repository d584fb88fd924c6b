/-
Every token of a plain tree points into the story.

Making a tree plain moves tokens around, and reads new ones from the code of
strings. It also puts some there that nobody wrote: the variables of what is
taken out with their assignments, and whatever turns a string with code into a
sum. `Sourced` tells them apart. What is promised of the written ones is
promised of those that are read from code too, so in a plain tree it holds of
every token that making it plain did not put there.

The tokens of a text stand in it. The code of a string is a stretch of the
string, so what is read from it stands in the story as well, where the string
stands, its quote and what is in front of the code counted; and so does what
is read from the strings in the code.
-/
import StoryLang.Proofs.Hoist.Plain
import StoryLang.Proofs.Hoist.Sound
import StoryLang.Proofs.Script.Record
import StoryLang.Proofs.Story.Plain
import StoryLang.Proofs.Token.Transcript
import StoryLang.Proofs.Tree.Yield

/-! # What making a tree plain puts there -/

namespace StoryLang

namespace Hoist

variable {S : Token → Prop} {m : ScanMode} {base : Nat} {cs : List Coord} {before left : List Tree}

/-- The pieces of a string as values, where it is known what is left of each code. -/
def resolved (t : Token) : List Piece → List Tree → List Tree
  | .text raw :: ps, vs =>
    .of .string [.token ⟨.string, String.ofList raw, t.position⟩] :: resolved t ps vs
  | .code _ offset :: ps, v :: vs =>
    castToString v ⟨t.line, t.column + 1 + offset⟩ :: resolved t ps vs
  | _, _ => []

/-- A tree whose tokens are `S`, but for those that making it plain put there. -/
inductive Sourced (S : Token → Prop) : Tree → Prop where
  | token {u : Token} (written : S u) : Sourced S (.token u)
  | node {rule : Rule} {line : Option Coord} {ps : List Tree} (parts : ∀ p ∈ ps, Sourced S p) :
    Sourced S (.node rule line ps)
  /-- What reads a value that was taken out. -/
  | reading {c : Coord} {place : Position} : Sourced S (c.path place)
  /-- The assignment of a value that was taken out. -/
  | taken {c : Coord} {v : Tree} (value : Sourced S v) : Sourced S (c.assignment v)
  /-- The sum that stands for a string with code. -/
  | interpolated {t : Token} {first : Tree} {vs rest : List Tree} (written : S t)
    (quoted : t.kind = .string) (code : Pieces.hasCode t.literal.toList = true)
    (codes : ∀ v ∈ vs, Sourced S v)
    (pieces : resolved t (Pieces.split t.literal.toList) vs = first :: rest) :
    Sourced S (sum t.position first rest)

theorem isA_sum {r : Rule} (hr : r ≠ .binaryExpression) (place : Position) (rest : List Tree) {first : Tree}
    (h : first.isA r = false) : (sum place first rest).isA r = false := by
  induction rest generalizing first with
  | nil => exact h
  | cons next rest ih => exact ih (by simp [Tree.isA, Tree.rule?, Ne.symm hr])

/-- A sum of pieces is no link. -/
theorem isA_resolved {t : Token} {ps : List Piece} {vs rest : List Tree} {first : Tree}
    (h : resolved t ps vs = first :: rest) (place : Position) :
    (sum place first rest).isA .mutationFragment = false := by
  refine isA_sum (by simp) place rest ?_
  unfold resolved at h
  split at h
  · obtain ⟨rfl, -⟩ := List.cons.inj h
    rfl
  · obtain ⟨rfl, -⟩ := List.cons.inj h
    rfl
  · cases h

namespace Sourced

theorem imp {S' : Token → Prop} (hS : ∀ u, S u → S' u) {t : Tree} (h : Sourced S t) : Sourced S' t := by
  induction h with
  | token written => exact .token (hS _ written)
  | node _ ih => exact .node ih
  | reading => exact .reading
  | taken _ ih => exact .taken ih
  | interpolated written quoted code _ pieces ih => exact .interpolated (hS _ written) quoted code ih pieces

/-- A tree that is all written. -/
theorem of_yield (t : Tree) : (∀ u ∈ t.yield, S u) → Sourced S t := by
  induction t using Tree.byParts with
  | token u => exact fun h => .token (h u (by simp [Tree.yield]))
  | node rule line ps ih =>
    refine fun h => .node fun p hp => ih p hp fun u hu => h u ?_
    rw [Tree.yield]
    exact Tree.mem_yieldAll hp hu

/-- Links of a chain are no sums. -/
theorem parts_of {t : Tree} (h : Sourced S t) (ht : t.isA .mutationFragment = true) :
    ∀ p ∈ t.parts, Sourced S p := by
  cases h with
  | node parts => exact parts
  | token | reading | taken => cases ht
  | @interpolated t _ _ _ _ _ _ _ pieces =>
    rw [isA_resolved pieces t.position] at ht
    cases ht

theorem mutationOf {subject fragment : Tree} (hs : Sourced S subject) (hf : ∀ p ∈ fragment.parts, Sourced S p) :
    Sourced S (Hoist.mutationOf subject fragment) := by
  refine .node ?_
  simp only [List.forall_mem_cons]
  exact ⟨hs, .node fun p hp => hf p (List.mem_filter.1 hp).1, by simp⟩

theorem firstLink {subject fragment : Tree} (hs : Sourced S subject) (hf : ∀ p ∈ fragment.parts, Sourced S p) :
    Sourced S (Hoist.firstLink subject fragment) := by
  unfold Hoist.firstLink
  split
  · exact .node (List.forall_mem_cons.2 ⟨hs, fun p hp => hf p (List.mem_filter.1 hp).1⟩)
  · exact .mutationOf hs hf

end Sourced

/-! ## Jobs -/

/-- What is promised of the tokens of a job. The parts of a chain are plain already. -/
def Job.Written (S : Token → Prop) : Job → Prop
  | .tree _ t | .code t => ∀ u ∈ t.yield, S u
  | .row ts => ∀ p ∈ ts, ∀ u ∈ p.2.yield, S u
  | .chain _ subject fragments => Sourced S subject ∧ ∀ f ∈ fragments, ∀ p ∈ f.parts, Sourced S p
  | .pieces t _ => S t
  | .statements ts => ∀ t ∈ ts, ∀ u ∈ t.yield, S u

/-- What a job leaves then. -/
def Job.Leaves (S : Token → Prop) (left : List Tree) : Job → Prop
  | .pieces t ps => ∃ vs, left = resolved t ps vs ∧ ∀ v ∈ vs, Sourced S v
  | _ => ∀ t ∈ left, Sourced S t

/-- What is read from the code of a string is promised the same as the string. -/
def ReadsOn (m : ScanMode) (S : Token → Prop) : Prop :=
  ∀ {t : Token} {source : List Char} {offset : Nat} {v : Tree}, S t → t.kind = .string →
    .code source offset ∈ Pieces.split t.literal.toList →
    readCode m source ⟨t.line, t.column + 1 + offset⟩ = .ok v → ∀ u ∈ v.yield, S u

/-- The parts of a node have its tokens. -/
theorem written_row {rule : Rule} {line : Option Coord} {ps : List Tree} {ts : List (Role × Tree)}
    (hts : ts.map Prod.snd = ps) (hw : ∀ u ∈ (Tree.node rule line ps).yield, S u) : (Job.row ts).Written S :=
  fun _ hp u hu => hw u (Tree.mem_yieldAll (hts ▸ List.mem_map_of_mem hp) hu)

/-- A value is taken out behind what was taken out of it. -/
theorem takenOut {c : Coord} {value : Tree} (hb : ∀ t ∈ before, Sourced S t)
    (hl : ∀ t ∈ [value], Sourced S t) : (∀ t ∈ before ++ [c.assignment value], Sourced S t) ∧
      ∀ t ∈ [reading c value], Sourced S t := by
  refine ⟨List.forall_mem_append.2 ⟨hb, ?_⟩, List.forall_mem_singleton.2 .reading⟩
  exact List.forall_mem_singleton.2 (.taken (List.forall_mem_singleton.1 hl))

/-- What a job takes out and leaves has the tokens of the job and of the code in its strings. -/
theorem Hoists.sourced (hg : m.grammar.KeepsLayout) (hS : ReadsOn m S) {job : Job}
    (h : Hoists m base job cs before left) : job.Formed (fun _ => True) m.grammar → job.Written S →
      (∀ t ∈ before, Sourced S t) ∧ job.Leaves S left := by
  induction h with
  | token => exact fun _ hw => ⟨by simp, by simpa [Job.Leaves] using .token (hw _ (by simp [Tree.yield]))⟩
  | none => exact fun _ _ => ⟨by simp, by simp [Job.Leaves]⟩
  | cons first others ih ih' =>
    intro hf hw
    obtain ⟨hw, hws⟩ := List.forall_mem_cons.1 hw
    obtain ⟨hb, hl⟩ := ih hf.first hw
    obtain ⟨hb', hl'⟩ := ih' hf.others hws
    exact ⟨List.forall_mem_append.2 ⟨hb, hb'⟩, List.forall_mem_cons.2 ⟨hl _ (by simp), hl'⟩⟩
  | keep keeps parts ih =>
    intro hf hw
    obtain ⟨hb, hl⟩ := ih (hf.keeps keeps) (written_row keeps.parts_eq hw)
    exact ⟨hb, List.forall_mem_singleton.2 (.node hl)⟩
  | guarded h parts ih =>
    intro hf hw
    obtain ⟨hb, hl⟩ := ih hf.parts (written_row (by simp [Function.comp_def]) hw)
    exact ⟨hb, List.forall_mem_singleton.2 (.node hl)⟩
  | chain h parts links ih ih' =>
    intro hf hw
    obtain ⟨hb, hl⟩ := ih hf.chain (written_row (by simp [Function.comp_def]) hw)
    obtain ⟨hsubject, hfragments⟩ := List.forall_mem_cons.1 hl
    obtain ⟨-, hmade⟩ := parts.made hg (fun _ _ => trivial) hf.chain
    have hlinks := hf.links hmade
    obtain ⟨hb', hl'⟩ := ih' hlinks ⟨hsubject, fun f hm => (hfragments f hm).parts_of (hlinks.2.2 f hm).2⟩
    exact ⟨List.forall_mem_append.2 ⟨hb, hb'⟩, hl'⟩
  | out h whole ih =>
    intro hf hw
    obtain ⟨hb, hl⟩ := ih (hf.out h) hw
    exact takenOut hb hl
  | block h statements ih =>
    intro hf hw
    obtain ⟨-, hl⟩ := ih (hf.statements h) fun t ht u hu => hw u (Tree.mem_yieldAll ht hu)
    exact ⟨by simp, List.forall_mem_singleton.2 (.node hl)⟩
  | lastLink =>
    rintro - ⟨hs, hfs⟩
    exact ⟨by simp, List.forall_mem_singleton.2 (hs.mutationOf (hfs _ (by simp)))⟩
  | link others ih =>
    rintro ⟨hlink, hplain, hplains⟩ ⟨hs, hfs⟩
    obtain ⟨hfirst, hfs⟩ := List.forall_mem_cons.1 hfs
    obtain ⟨hplain', hplains⟩ := List.forall_mem_cons.1 hplains
    obtain ⟨hb, hl⟩ := ih ⟨.inr rfl, ⟨formed_reading, fits_reading⟩, hplains⟩ ⟨.reading, hfs⟩
    refine ⟨List.forall_mem_cons.2 ⟨.taken ?_, hb⟩, hl⟩
    rcases hlink with rfl | rfl
    · exact hs.firstLink hfirst
    · exact hs.mutationOf hfirst
  | plainString =>
    exact fun _ hw => ⟨by simp, List.forall_mem_singleton.2 (.of_yield _ hw)⟩
  | @string base role line t cs before first rest h hasCode pieces ih =>
    intro hf hw
    have hwritten := hw t (by simp [Tree.yield, Tree.yieldAll])
    obtain ⟨hb, vs, hvs, hcodes⟩ := ih hf.pieces hwritten
    refine ⟨hb, List.forall_mem_singleton.2 ?_⟩
    exact .interpolated hwritten hf.pieces.1 hasCode hcodes hvs.symm
  | noPieces => exact fun _ _ => ⟨by simp, [], rfl, by simp⟩
  | text others ih =>
    intro hf hw
    obtain ⟨hb, vs, rfl, hcodes⟩ := ih hf.otherPieces hw
    exact ⟨hb, vs, rfl, hcodes⟩
  | piece read code others ih ih' =>
    intro hf hw
    have hread := hS hw hf.1 (hf.2.2 _ (by simp)) read
    obtain ⟨hb, hl⟩ := ih (Job.Formed.code hg (fun _ _ => trivial) read) hread
    obtain ⟨hb', vs, rfl, hcodes⟩ := ih' hf.otherPieces hw
    exact ⟨List.forall_mem_append.2 ⟨hb, hb'⟩, _ :: vs, rfl, List.forall_mem_cons.2 ⟨hl _ (by simp), hcodes⟩⟩
  | codePath path whole ih => exact fun hf hw => ih hf.whole hw
  | codeOut noPath whole ih =>
    intro hf hw
    obtain ⟨hb, hl⟩ := ih hf.whole hw
    exact takenOut hb hl
  | noStatements => exact fun _ _ => ⟨by simp, by simp [Job.Leaves]⟩
  | statements first others ih ih' =>
    intro hf hw
    obtain ⟨hw, hws⟩ := List.forall_mem_cons.1 hw
    obtain ⟨hb, hl⟩ := ih hf.statement hw
    obtain ⟨-, hl'⟩ := ih' hf.otherStatements hws
    exact ⟨by simp, List.forall_mem_append.2 ⟨hb, List.forall_mem_cons.2 ⟨hl _ (by simp), hl'⟩⟩⟩

end Hoist

end StoryLang

/-! # The tokens of a plain story -/

namespace StoryLang

variable {m : ScanMode} {text : List Char} {tokens : List Token}

/-- A token that was read from a text without a byte order mark stands in it. -/
theorem scan_standsIn (hm : Text.byteOrderMark ∉ text) (h : (scan m text).tokens = .ok tokens) :
    ∀ u ∈ tokens.filter Token.isCode, u.StandsIn .first text := by
  have hscript := scan_transcript h
  rw [show Text.dropMark text = text by
    cases text with
    | nil => rfl
    | cons c text => exact if_neg (List.ne_of_not_mem_cons hm).symm] at hscript
  exact hscript.each

namespace Hoist

/-- What is read from the code of a string is spelled by moved tokens of its scan. -/
theorem readCode_scanned (hg : m.grammar.KeepsLayout) {source : List Char} {start : Position} {v : Tree}
    (h : readCode m source start = .ok v) : ∃ tokens, (scan m source).tokens = .ok tokens ∧
      ∀ u ∈ v.yield, ∃ t ∈ tokens.filter Token.isCode, u = moved start t := by
  unfold readCode at h
  split at h
  · simp at h
  · rename_i tokens ht
    change Tree.ofFragment m.grammar (tokens.map (moved start)) = .ok v at h
    obtain ⟨used, hp, hd⟩ := Tree.ofFragment_ok hg h
    rw [missingEnd_moved (scan_ok ht), List.append_nil] at hp
    refine ⟨tokens, ht, fun u hu => ?_⟩
    have hused := hd.yield_subset u (by simpa [Tree.yieldAll] using hu)
    obtain ⟨t, hmem, rfl⟩ := List.mem_map.1 (hp.subset hused)
    refine ⟨t, List.mem_filter.2 ⟨hmem, ?_⟩, rfl⟩
    have hflat : t.kind.isLayout = false := hd.flat hg rfl (moved start t) hused
    simp [Token.isCode, hflat]

/-- What stands in the code of a string stands in the text that the string stands in. -/
theorem standsIn_moved {t u : Token} {source : List Char} {offset : Nat} (ht : t.StandsIn .first text)
    (hk : t.kind = .string) (hn : '\n' ∉ t.literal.toList)
    (hpiece : .code source offset ∈ Pieces.split t.literal.toList) (hu : u.StandsIn .first source) :
    (moved ⟨t.line, t.column + 1 + offset⟩ u).StandsIn .first text := by
  obtain ⟨front, _, rest, rfl, hplace, hw⟩ := ht
  rw [Token.WrittenAs, if_pos hk] at hw
  obtain ⟨quote, hq, rfl⟩ := hw
  obtain ⟨pre, post, hraw, rfl⟩ := Pieces.mem_split hpiece
  obtain ⟨front', written, rest', rfl, hplace', hw'⟩ := hu
  rw [hraw] at hn ⊢
  simp only [List.mem_append, List.mem_cons, not_or] at hn
  have hline : '\n' ∉ quote :: pre ++ '{' :: front' := by
    rcases hq with rfl | rfl <;> simp [hn]
  refine ⟨front ++ (quote :: pre ++ '{' :: front'), written, rest' ++ '}' :: post ++ quote :: rest,
    by simp, ?_, hw'⟩
  have hu : u.position = ⟨1, 1 + front'.length⟩ := by
    rw [hplace', Position.behind_line hn.1.2.2.1.1]
    rfl
  rw [Position.behind_append, ← hplace, Position.behind_line hline]
  simp only [moved, shift, hu, if_true, Token.line, Token.column, List.length_append, List.length_cons]
  congr 1
  omega

/-- What is read from the code of a string that stands in a text stands there too. -/
theorem readsOn_standsIn (hg : m.grammar.KeepsLayout) (hm : Text.byteOrderMark ∉ text) :
    ReadsOn m fun u => u.StandsIn .first text ∧ u.Sound := by
  rintro t source offset v ⟨ht, hsound⟩ hk hpiece hread u hu
  obtain ⟨tokens, hscan, hfrom⟩ := readCode_scanned hg hread
  obtain ⟨u, hmem, rfl⟩ := hfrom u hu
  have hmark : Text.byteOrderMark ∉ source := by
    obtain ⟨front, written, rest, rfl, -, hw⟩ := ht
    rw [Token.WrittenAs, if_pos hk] at hw
    obtain ⟨quote, -, rfl⟩ := hw
    obtain ⟨pre, post, hraw, -⟩ := Pieces.mem_split hpiece
    rw [hraw] at hm
    exact fun h => hm (by simp [h])
  have hstands := scan_standsIn hmark hscan u hmem
  refine ⟨standsIn_moved ht hk (hsound.string hk) hpiece hstands, ?_⟩
  exact Sound.moved ((scan_ok hscan).valid u (List.mem_filter.1 hmem).1).sound

end Hoist

namespace Story

/-- What is promised of the tokens of a story, and of what is read from the code of strings that it
is promised of, holds of every token of the plain tree that was written. -/
theorem hoisted_sourced {S : Token → Prop} (hg : m.grammar.KeepsLayout) (hS : Hoist.ReadsOn m S)
    (htokens : ∀ u ∈ tokens.filter Token.isCode, S u) {t : Tree} (ht : hoistedTreeOf m tokens = .ok t) :
    Hoist.Sourced S t := by
  obtain ⟨u, hu, ht⟩ := ok_of_bind ht
  obtain ⟨trees, cs, left, i, rfl, rfl, hd, hformed, -, hh⟩ := Hoist.story_hoists hg hu ht
  refine .node (hh.sourced hg hS hformed fun p hp v hv => htokens v ?_).2
  have hmem := Tree.mem_yieldAll hp hv
  refine List.mem_filter.2 ⟨(List.takeWhile_prefix _).subset (hd.yield_subset v hmem), ?_⟩
  simp [Token.isCode, hd.yield_flat hg v hmem]

/-- In a plain tree every token that making it plain did not put there stands in the text where
its position says, also those of code in strings, however deep. -/
theorem hoisted_standsIn (hg : m.grammar.Accepted) (hm : Text.byteOrderMark ∉ text)
    (hs : (scan m text).tokens = .ok tokens) {t : Tree} (ht : hoistedTreeOf m tokens = .ok t) :
    Hoist.Sourced (·.StandsIn .first text) t := by
  refine (hoisted_sourced hg.keepsLayout (Hoist.readsOn_standsIn hg.keepsLayout hm) ?_ ht).imp
    fun u hu => hu.1
  intro u hu
  exact ⟨scan_standsIn hm hs u hu, ((scan_ok hs).valid u (List.mem_filter.1 hu).1).sound⟩

/-- A name in the code of a string that is in the code of a string. -/
theorem hoisted_standsIn_nested :
    let text := "a = \"x \x7bf(y:\"\x7bb\x7d y\")\x7d z\"".toList
    Grammar.builtIn.Accepted ∧ Text.byteOrderMark ∉ text ∧ ∃ tokens t,
      (scan ⟨.builtIn, false⟩ text).tokens = .ok tokens ∧
      hoistedTreeOf ⟨.builtIn, false⟩ tokens = .ok t ∧ ⟨.name, "b", ⟨1, 15⟩⟩ ∈ t.yield ∧
      Hoist.Sourced (·.StandsIn .first text) t := by
  intro text
  have hmark : Text.byteOrderMark ∉ text := by decide +kernel
  have hread : (scan ⟨.builtIn, false⟩ text).tokens.toOption.bind (fun tokens =>
      (hoistedTreeOf ⟨.builtIn, false⟩ tokens).toOption.map fun t =>
        decide (⟨.name, "b", ⟨1, 15⟩⟩ ∈ t.yield)) = some true := by
    decide +kernel
  obtain ⟨tokens, htokens, hread⟩ := Option.bind_eq_some_iff.1 hread
  obtain ⟨t, ht, hmem⟩ := Option.map_eq_some_iff.1 hread
  rw [toOption_eq_some] at htokens ht
  exact ⟨.builtIn, hmark, tokens, t, htokens, ht, of_decide_eq_true hmem,
    hoisted_standsIn .builtIn hmark htokens ht⟩

end Story

end StoryLang
