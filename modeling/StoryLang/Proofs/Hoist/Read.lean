/-
Every code is read, and in the end no string holds code.

If a story is made plain, what stands between the braces of its strings was
read as a value and made plain, too, and so was what stands in the strings of
that value.

Every string of a story that was read is in a node of its own, and of such a
node only the texts between the codes are left. So no token of a plain story is
a string with code.
-/
import StoryLang.Proofs.Hoist.Normal
import StoryLang.Proofs.Token.Layout
import StoryLang.Proofs.Token.Led
import StoryLang.Proofs.Tree.Marks
import StoryLang.Proofs.Tree.Yield

/-! # Every code is read -/

namespace StoryLang

namespace Hoist

variable {m : ScanMode} {P : Token → Prop} {base : Nat} {cs : List Coord} {before left : List Tree}

/-- The code was read as a value that was made plain. -/
def IsRead (m : ScanMode) (source : List Char) : Prop :=
  ∃ start v base cs before left, readCode m source start = .ok v ∧ Hoists m base (.code v) cs before left

/-- The codes in the strings of a tree were read. -/
def CodesRead (m : ScanMode) (t : Tree) : Prop :=
  ∀ line u, .node .string line [.token u] ∈ t.walk → ∀ source offset,
    .code source offset ∈ Pieces.split u.literal.toList → IsRead m source

theorem codesRead_node {rule : Rule} {line : Option Coord} {ps : List Tree} (hr : rule ≠ .string)
    (h : ∀ p ∈ ps, CodesRead m p) : CodesRead m (.node rule line ps) := by
  intro line' u hu
  rw [Tree.walk, Tree.walkAll_eq, List.mem_cons, List.mem_flatMap] at hu
  obtain ⟨p, hp, hu⟩ := hu.resolve_left fun he => hr (Tree.node.inj he).1.symm
  exact h p hp line' u hu

/-- The codes in the strings of a job were read. The parts of a chain have none any more. -/
def Job.CodesRead (m : ScanMode) : Job → Prop
  | .tree _ t | .code t => Hoist.CodesRead m t
  | .row ts => ∀ p ∈ ts, Hoist.CodesRead m p.2
  | .chain _ _ _ => True
  | .pieces _ ps => ∀ source offset, .code source offset ∈ ps → IsRead m source
  | .statements ts => ∀ t ∈ ts, Hoist.CodesRead m t

theorem Hoists.codesRead {job : Job} (h : Hoists m base job cs before left) :
    job.Formed P m.grammar → job.CodesRead m := by
  induction h with
  | token => exact fun _ _ _ hu => absurd hu (by simp [Tree.walk])
  | none => exact fun _ => by simp [Job.CodesRead]
  | cons first others ih ih' =>
    exact fun hf => List.forall_mem_cons.2 ⟨ih hf.first, ih' hf.others⟩
  | @keep _ _ _ _ _ ts _ _ _ keeps parts ih =>
    intro hf
    refine codesRead_node (keeps.ne_string hf.2) fun p hp => ?_
    rw [← keeps.parts_eq] at hp
    obtain ⟨q, hq, rfl⟩ := List.mem_map.1 hp
    exact ih (hf.keeps keeps) q hq
  | guarded h parts ih =>
    intro hf
    have hr := rule_of_guarded h
    exact codesRead_node (by rcases hr with rfl | rfl <;> simp) fun p hp =>
      ih hf.parts (.part, p) (List.mem_map_of_mem hp)
  | chain h parts links ih =>
    intro hf
    refine codesRead_node (by simp) ?_
    have hrow := ih hf.chain
    simpa [Job.CodesRead] using hrow
  | out h whole ih => exact fun hf => ih (hf.out h)
  | block h statements ih =>
    intro hf
    obtain ⟨-, rfl⟩ := rule_of_statements h
    exact codesRead_node (by simp) (ih (hf.statements h))
  | lastLink | link => exact fun _ => trivial
  | plainString h text =>
    intro _ line u hu source offset hp
    obtain ⟨-, rfl⟩ : _ ∧ u = _ := by simpa [Tree.walk, Tree.walkAll] using hu
    have hno := List.any_eq_false.1 text _ hp
    simp [Piece.isCode] at hno
  | string h hasCode pieces ih =>
    intro hf line u hu
    obtain ⟨-, rfl⟩ : _ ∧ u = _ := by simpa [Tree.walk, Tree.walkAll] using hu
    exact ih hf.pieces
  | noPieces => exact fun _ => by simp [Job.CodesRead]
  | text others ih =>
    intro hf source offset hp
    exact ih hf.otherPieces source offset (by simpa using hp)
  | piece read code others ih ih' =>
    intro hf source' offset' hp
    rcases List.mem_cons.1 hp with hp | hp
    · obtain ⟨rfl, rfl⟩ := Piece.code.inj hp
      exact ⟨_, _, _, _, _, _, read, code⟩
    · exact ih' hf.otherPieces source' offset' hp
  | codePath path whole ih => exact fun hf => ih hf.whole
  | codeOut noPath whole ih => exact fun hf => ih hf.whole
  | noStatements => exact fun _ => by simp [Job.CodesRead]
  | statements first others ih ih' =>
    exact fun hf => List.forall_mem_cons.2 ⟨ih hf.statement, ih' hf.otherStatements⟩

/-! ## Strings among tokens -/

/-- A code is read from its tokens up to the end of a line. -/
theorem readCode_line (hg : m.grammar.KeepsLayout) {source : List Char} {start : Position} {v : Tree}
    (h : readCode m source start = .ok v) : ∃ front lineEnd behind,
      (scan m source).tokens = .ok (front ++ lineEnd :: behind) ∧
      (lineEnd.kind = .newline ∨ lineEnd.kind = .eof) ∧
      Derives m.grammar .anyValue (front.map (moved start)) [v] := by
  unfold readCode at h
  split at h
  · simp at h
  · rename_i tokens hts
    obtain ⟨used, last, rest, htokens, hlast, hd⟩ := Tree.ofFragment_derives hg h
    change tokens.map (moved start) ++ Cursor.missingEnd (tokens.map (moved start)) = _ at htokens
    rw [missingEnd_moved (scan_ok hts), List.append_nil] at htokens
    obtain ⟨front, behind, rfl, rfl, hbehind⟩ := List.map_eq_append_iff.1 htokens
    obtain ⟨lineEnd, behind, rfl, rfl, rfl⟩ := List.map_eq_cons_iff.1 hbehind
    exact ⟨front, lineEnd, behind, hts, hlast, hd⟩

/-- All tokens of a code on one line that stand for text are read. -/
theorem readCode_all (hg : m.grammar.KeepsLayout) {source : List Char} (hl : '\n' ∉ source)
    {start : Position} {v : Tree} (h : readCode m source start = .ok v) {tokens : List Token}
    (hts : (scan m source).tokens = .ok tokens) {t : Token} (ht : t ∈ tokens)
    (hk : t.kind.isLayout = false) : ∃ used, Derives m.grammar .anyValue used [v] ∧ moved start t ∈ used := by
  obtain ⟨front, lineEnd, behind, hread, hlast, hd⟩ := readCode_line hg h
  obtain rfl := Except.ok.inj (hread.symm.trans hts)
  have hs := scan_ok hts
  refine ⟨_, hd, List.mem_map_of_mem ?_⟩
  rcases List.mem_append.1 ht with hfront | ht
  · exact hfront
  exfalso
  rcases List.mem_cons.1 ht with rfl | hlater
  · rcases hlast with hkind | hkind <;> simp [hkind] at hk
  rcases hlast with hnewline | heof
  · -- what is behind the end of a line is on a later one
    have hfollows := (List.pairwise_cons.1 (List.pairwise_append.1 hs.order).2.1).1 t hlater
    have hlt := (hfollows.before hk).newline hnewline
    have hline := (hs.columns (Text.not_mem_dropMark hl) (List.mem_append_right _ ht) hk).1
    have hplace := (hs.valid lineEnd (by simp)).place.1
    rw [← Token.line, hline] at hlt
    omega
  · -- and nothing is behind the end of the text
    obtain ⟨others, last, hsplit, -, hno⟩ := (scan_laidOut hts).ended
    obtain ⟨before, u, rfl⟩ : ∃ before u, behind = before ++ [u] :=
      ⟨_, _, (List.dropLast_concat_getLast (List.ne_nil_of_mem hlater)).symm⟩
    have hsplit : (front ++ lineEnd :: before) ++ [u] = others ++ [last] := by simpa using hsplit
    obtain ⟨rfl, -⟩ := List.append_inj' hsplit rfl
    exact hno lineEnd (by simp) heof

/-- No value is read from a code that starts with blanks: an indent leads it. -/
theorem not_isRead_led (hg : m.grammar.KeepsLayout) {blanks source : List Char}
    (hb : ∀ c ∈ blanks, c = ' ' ∨ c = '\t') (hne : blanks ≠ []) (hl : '\n' ∉ source) :
    ¬ IsRead m (blanks ++ source) := by
  rintro ⟨start, v, -, -, -, -, hread, -⟩
  obtain ⟨front, lineEnd, behind, hts, -, hd⟩ := readCode_line hg hread
  obtain ⟨t, front, rfl⟩ := List.exists_cons_of_ne_nil
    fun he : front = [] => hd.anyValue_ne_nil (by rw [he, List.map_nil])
  have hlayout := Scan.scan_led hb hne hl hts t rfl
  have hcode : t.kind.isLayout = false := hd.flat hg rfl (moved start t) (by simp)
  simp [Token.isCode, hcode] at hlayout

/-- The codes in the strings of a code that was read were read. -/
theorem IsRead.string (hg : m.grammar.Accepted) {source : List Char} (hl : '\n' ∉ source)
    (h : IsRead m source) {tokens : List Token} (hts : (scan m source).tokens = .ok tokens) {u : Token}
    (hu : u ∈ tokens) (hk : u.kind = .string) {code : List Char} {offset : Nat}
    (hc : .code code offset ∈ Pieces.split u.literal.toList) : IsRead m code := by
  obtain ⟨start, v, base, cs, before, left, hread, hhoists⟩ := h
  obtain ⟨used, hd, hmem⟩ := readCode_all hg.keepsLayout hl hread hts hu (by simp [hk])
  have hyield : moved start u ∈ v.yield := by
    have hsame := hd.spares.filter_eq (p := fun t => decide (t.kind = .string))
      (by simp +contextual [TokenKind.isSpare])
    have hin : moved start u ∈ used.filter fun t => decide (t.kind = .string) :=
      List.mem_filter.2 ⟨hmem, decide_eq_true hk⟩
    rw [← hsame] at hin
    simpa [Tree.yieldAll] using (List.mem_filter.1 hin).1
  obtain ⟨line, hnode⟩ := (hd.housed hg v (by simp)).mem_walk hyield hk
  have hcodes := hhoists.codesRead (Job.Formed.code hg.keepsLayout (fun _ _ => trivial) hread)
  exact hcodes line (moved start u) hnode code offset hc

end Hoist

end StoryLang

/-! # In the end no string holds code -/

namespace StoryLang

namespace Tree

/-- No string of the tree holds code. -/
def Uncoded (t : Tree) : Prop :=
  ∀ u ∈ t.yield, u.kind = .string → Pieces.hasCode u.literal.toList = false

@[simp] theorem uncoded_token {u : Token} :
    (token u).Uncoded ↔ (u.kind = .string → Pieces.hasCode u.literal.toList = false) := by
  simp [Uncoded, yield]

@[simp] theorem uncoded_node {rule : Rule} {line : Option Coord} {ps : List Tree} :
    (node rule line ps).Uncoded ↔ ∀ p ∈ ps, p.Uncoded := by
  constructor
  · intro h p hp u hu
    exact h u (by rw [yield]; exact mem_yieldAll hp hu)
  · intro h u hu
    obtain ⟨p, hp, hu⟩ := of_mem_yieldAll (by rwa [yield] at hu)
    exact h p hp u hu

end Tree

namespace Hoist

open StoryLang.Tree

variable {m : ScanMode} {P : Token → Prop} {base : Nat} {cs : List Coord} {before left : List Tree}

theorem uncoded_reading (c : Coord) (v : Tree) : (reading c v).Uncoded := by
  simp [reading, Coord.path, Tree.of]

theorem uncoded_assignment {c : Coord} {v : Tree} (h : v.Uncoded) : (c.assignment v).Uncoded := by
  simpa [Coord.assignment, Coord.path, Tree.of] using h

theorem uncoded_linkParts {fragment : Tree} (h : fragment.Uncoded) : ∀ p ∈ linkParts fragment, p.Uncoded := by
  intro p hp
  cases fragment with
  | token => simp [linkParts, Tree.parts] at hp
  | node => exact uncoded_node.1 h p (List.mem_filter.1 hp).1

theorem uncoded_mutationOf {subject fragment : Tree} (hs : subject.Uncoded) (hf : fragment.Uncoded) :
    (mutationOf subject fragment).Uncoded := by
  simpa [mutationOf, Tree.of] using ⟨hs, uncoded_linkParts hf⟩

theorem uncoded_firstLink {subject fragment : Tree} (hs : subject.Uncoded) (hf : fragment.Uncoded) :
    (firstLink subject fragment).Uncoded := by
  unfold firstLink
  split
  · simpa [Tree.of] using ⟨hs, uncoded_linkParts hf⟩
  · exact uncoded_mutationOf hs hf

theorem uncoded_sum (place : Position) {first : Tree} {rest : List Tree} (h : first.Uncoded)
    (hr : ∀ t ∈ rest, t.Uncoded) : (sum place first rest).Uncoded := by
  induction rest generalizing first with
  | nil => exact h
  | cons next rest ih =>
    obtain ⟨hnext, hr⟩ := List.forall_mem_cons.1 hr
    exact ih (by simpa [Tree.of] using ⟨h, hnext⟩) hr

theorem uncoded_cast {v : Tree} {place : Position} (h : v.Uncoded) : (castToString v place).Uncoded := by
  simpa [castToString, Tree.of] using h

/-- What is promised of the strings of a job. The parts of a chain are plain already. -/
def Job.Housed : Job → Prop
  | .tree _ t | .code t => t.Housed
  | .row ts => ∀ p ∈ ts, p.2.Housed
  | .chain _ subject fragments => subject.Uncoded ∧ ∀ f ∈ fragments, f.Uncoded
  | .pieces _ _ => True
  | .statements ts => ∀ t ∈ ts, t.Housed

/-- The parts of a node that is no string. -/
theorem housed_parts {rule : Rule} {line : Option Coord} {ps : List Tree} (h : (node rule line ps).Housed)
    (hr : rule ≠ .string) : (Job.row (ps.map (.part, ·))).Housed := by
  rw [housed_node hr] at h
  simpa [Job.Housed] using h

theorem Keeps.housed {role : Role} {rule : Rule} {line : Option Coord} {ps : List Tree}
    {ts : List (Role × Tree)} (h : Keeps role rule ps ts) (ht : (node rule line ps).Housed)
    (hr : rule ≠ .string) : (Job.row ts).Housed := by
  intro p hp
  have hmem := List.mem_map_of_mem (f := Prod.snd) hp
  rw [h.parts_eq] at hmem
  exact (housed_node hr).1 ht _ hmem

/-- No string that is taken out or left holds code. -/
theorem Hoists.uncoded (hg : m.grammar.Accepted) (hP : ∀ u : Token, u.Sound → P u) {job : Job}
    (h : Hoists m base job cs before left) :
    job.Formed P m.grammar → job.Housed → (∀ b ∈ before, b.Uncoded) ∧ ∀ t ∈ left, t.Uncoded := by
  induction h with
  | token =>
    intro _ hh
    simpa using fun hk => absurd hk (housed_token.1 hh)
  | none => exact fun _ _ => ⟨by simp, by simp⟩
  | cons first others ih ih' =>
    intro hf hh
    obtain ⟨hfirst, hothers⟩ := List.forall_mem_cons.1 hh
    obtain ⟨hb, ht⟩ := ih hf.first hfirst
    obtain ⟨hb', hts⟩ := ih' hf.others hothers
    exact ⟨List.forall_mem_append.2 ⟨hb, hb'⟩, List.forall_mem_cons.2 ⟨ht _ (by simp), hts⟩⟩
  | keep keeps parts ih =>
    intro hf hh
    obtain ⟨hb, hts⟩ := ih (hf.keeps keeps) (keeps.housed hh (keeps.ne_string hf.2))
    exact ⟨hb, by simpa using hts⟩
  | guarded h parts ih =>
    intro hf hh
    have hr := rule_of_guarded h
    obtain ⟨hb, hts⟩ := ih hf.parts (housed_parts hh (by rcases hr with rfl | rfl <;> simp))
    exact ⟨hb, by simpa using hts⟩
  | chain h parts links ih ih' =>
    intro hf hh
    obtain ⟨-, hp⟩ := parts.made hg.keepsLayout hP hf.chain
    have hrow := (housed_node (by simp)).1 hh
    obtain ⟨hb, hts⟩ := ih hf.chain (by simpa [Job.Housed] using hrow)
    obtain ⟨hb', ht⟩ := ih' (hf.links hp) (List.forall_mem_cons.1 hts)
    exact ⟨List.forall_mem_append.2 ⟨hb, hb'⟩, ht⟩
  | out h whole ih =>
    intro hf hh
    obtain ⟨hb, hv⟩ := ih (hf.out h) hh
    exact ⟨List.forall_mem_append.2 ⟨hb, by simpa using uncoded_assignment (hv _ (by simp))⟩,
      by simpa using uncoded_reading _ _⟩
  | block h statements ih =>
    intro hf hh
    obtain ⟨-, rfl⟩ := rule_of_statements h
    obtain ⟨-, hts⟩ := ih (hf.statements h) ((housed_node (by simp)).1 hh)
    exact ⟨by simp, by simpa using hts⟩
  | lastLink =>
    intro _ hh
    exact ⟨by simp, by simpa using uncoded_mutationOf hh.1 (hh.2 _ (by simp))⟩
  | link others ih =>
    rintro ⟨hl, hs, hfs⟩ ⟨hus, huf⟩
    simp only [List.forall_mem_cons] at hfs huf
    obtain ⟨hb, ht⟩ := ih ⟨.inr rfl, ⟨formed_reading, fits_reading⟩, List.forall_mem_cons.2 hfs.2⟩
      ⟨uncoded_reading _ _, List.forall_mem_cons.2 huf.2⟩
    refine ⟨List.forall_mem_cons.2 ⟨uncoded_assignment ?_, hb⟩, ht⟩
    rcases hl with rfl | rfl
    · exact uncoded_firstLink hus huf.1
    · exact uncoded_mutationOf hus huf.1
  | plainString h text =>
    intro _ _
    exact ⟨by simp, by simpa using fun _ => text⟩
  | string h hasCode pieces ih =>
    intro hf _
    obtain ⟨hb, hts⟩ := ih hf.pieces trivial
    obtain ⟨hfirst, hrest⟩ := List.forall_mem_cons.1 hts
    exact ⟨hb, by simpa using uncoded_sum _ hfirst hrest⟩
  | noPieces => exact fun _ _ => ⟨by simp, by simp⟩
  | text others ih =>
    intro hf _
    obtain ⟨hb, hts⟩ := ih hf.otherPieces trivial
    refine ⟨hb, List.forall_mem_cons.2 ⟨?_, hts⟩⟩
    simpa [Tree.of] using Pieces.hasCode_text (hf.2.2 _ List.mem_cons_self)
  | piece read code others ih ih' =>
    intro hf _
    obtain ⟨_, _, _, _, hd⟩ := readCode_derives hg.keepsLayout read
    obtain ⟨hb, hv⟩ := ih (Job.Formed.code hg.keepsLayout hP read) (hd.housed hg _ (by simp))
    obtain ⟨hb', hts⟩ := ih' hf.otherPieces trivial
    exact ⟨List.forall_mem_append.2 ⟨hb, hb'⟩, List.forall_mem_cons.2 ⟨uncoded_cast (hv _ (by simp)), hts⟩⟩
  | codePath path whole ih => exact fun hf hh => ih hf.whole hh
  | codeOut noPath whole ih =>
    intro hf hh
    obtain ⟨hb, hv⟩ := ih hf.whole hh
    exact ⟨List.forall_mem_append.2 ⟨hb, by simpa using uncoded_assignment (hv _ (by simp))⟩,
      by simpa using uncoded_reading _ _⟩
  | noStatements => exact fun _ _ => ⟨by simp, by simp⟩
  | statements first others ih ih' =>
    intro hf hh
    obtain ⟨hfirst, hothers⟩ := List.forall_mem_cons.1 hh
    obtain ⟨hb, ht⟩ := ih hf.statement hfirst
    obtain ⟨-, hts⟩ := ih' hf.otherStatements hothers
    exact ⟨by simp, List.forall_mem_append.2 ⟨hb, List.forall_mem_cons.2 ⟨ht _ (by simp), hts⟩⟩⟩

/-- No string of a plain story holds code. -/
theorem story_uncoded (hg : m.grammar.Accepted) {tokens : List Token} {t t' : Tree}
    (ht : Tree.ofTokens m.grammar tokens = .ok t) (h : story m t = .ok t') : t'.Uncoded := by
  obtain ⟨trees, cs, left, i, rfl, rfl, hd, hformed, -, hh⟩ := story_hoists hg.keepsLayout ht h
  obtain ⟨-, hleft⟩ := hh.uncoded hg (fun _ _ => trivial) hformed (hd.housed hg)
  exact uncoded_node.2 hleft

end Hoist

end StoryLang
