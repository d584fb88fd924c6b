/-
Making a plain story plain again.

What is left of a tree, and every assignment that was taken out, rests where
it stands: making it plain once more takes nothing out and leaves it as it is.
That is carried through the relation, since it depends on how a tree was left:
a call rests as the value of an assignment only, a chain only if one link is
left of it, and a text only because no text of a string has code. So a story
is plain after one time, down to the coordinates (`Hoist.story_idempotent`).
-/
import StoryLang.Proofs.Hoist.Plain
import StoryLang.Proofs.Hoist.Sound
import StoryLang.Proofs.Tree.Outline

namespace StoryLang.Hoist

variable {m : ScanMode} {code : Nat → Tree → Hoist (Out Tree)} {base : Nat} {role : Role}
  {rule : Rule} {line : Option Coord} {ps : List Tree} {t : Tree}

/-- Making the tree plain in a role takes nothing out and leaves it, whatever is done with code. -/
def Rests (m : ScanMode) (role : Role) (t : Tree) : Prop :=
  ∀ code base, tree m code base role t = pure (.all t)

/-! ## Rows -/

theorem rests_token {u : Token} : Rests m role (.token u) := fun _ _ => by rw [tree]

theorem parts_rest (h : ∀ t ∈ ps, Rests m .part t) : parts m code base ps = pure (.all ps) := by
  induction ps with
  | nil => rw [parts]
  | cons t ps ih =>
    simp only [List.forall_mem_cons] at h
    simp [parts, h.1 code base, ih h.2, Out.all]

theorem partsLast_rest (h : ∀ p ∈ lastAs role ps, Rests m p.1 p.2) :
    partsLast m code base role ps = pure (.all ps) := by
  induction ps with
  | nil => simp [partsLast]
  | cons t ps ih =>
    cases ps with
    | nil => simp [partsLast, h (role, t) (by simp [lastAs]) code base, Out.all]
    | cons u ps =>
      simp only [lastAs, List.forall_mem_cons] at h
      simp [partsLast, h.1 code base, ih h.2, Out.all]

theorem statements_rest (h : ∀ t ∈ ps, Rests m .statement t) :
    statements m code ps = pure ps := by
  induction ps with
  | nil => rw [statements]
  | cons t ps ih =>
    simp only [List.forall_mem_cons] at h
    cases t with
    | token u => simp [statements, ih h.2]
    | node rule line qs => simp [statements, h.1 code _, ih h.2, Out.all]

/-! ## Nodes -/

/-- It only matters what is done with a node. -/
theorem Rests.of_treatment {role' : Role} (h : Rests m role (.node rule line ps))
    (ht : treatment role rule = treatment role' rule) : Rests m role' (.node rule line ps) := by
  intro code base
  rw [← h code base, tree_treated ht, tree_treated rfl]

theorem rests_parts (ht : treatment role rule = .parts) (h : ∀ p ∈ ps, Rests m .part p) :
    Rests m role (.node rule line ps) := by
  intro code base
  rw [tree_parts ht, parts_rest h]
  rfl

theorem rests_last {lastRole : Role} (ht : treatment role rule = .lastAs lastRole)
    (h : ∀ p ∈ lastAs lastRole ps, Rests m p.1 p.2) : Rests m role (.node rule line ps) := by
  intro code base
  rw [tree_treated ht]
  simp only [partsLast_rest h]
  split <;> rfl

theorem rests_value (ht : treatment role rule = .values) (hf : t.fits .plain = true)
    (h : Rests m .value t) : Rests m role (.node rule line [t]) := by
  intro code base
  obtain ⟨inner, line', qs, rfl, hv | ⟨hs, -⟩⟩ := Tree.fits_iff.1 hf
  · have hc : inner.isCall = false := by cases inner <;> simp_all [Rule.isValue, Rule.isCall]
    rw [tree_value ht hc, h code base]
    rfl
  · cases hs

theorem rests_guarded {construct : String} {u : Token} (ht : treatment role rule = .guarded construct)
    (hu : Tree.firstTokenOf? ps = some u) (h : ∀ p ∈ ps, Rests m .part p) :
    Rests m role (.node rule line ps) := by
  intro code base
  rw [tree_guarded ht hu, parts_rest h]
  rfl

theorem rests_block (h : ∀ p ∈ ps, Rests m .statement p) : Rests m .part (.node .block line ps) := by
  intro code base
  rw [tree_statements rfl, statements_rest h]
  rfl

theorem rests_text {u : Token} (h : Pieces.hasCode u.literal.toList = false) :
    Rests m role (.node .string line [.token u]) := by
  have hs : treatment role .string = .string ∨ treatment role .string = .parts := by
    cases role <;> simp [treatment, asValue, asOperand]
  rcases hs with hs | hs
  · intro code base
    rw [tree_string hs]
    simp [string, h]
  · exact rests_parts hs (by simp [rests_token])

/-! ## What is built -/

theorem rests_reading {c : Coord} {v : Tree} : Rests m role (reading c v) :=
  rests_parts (by cases role <;> rfl) (by simp [rests_token])

theorem rests_assignment {c : Coord} {v : Tree} (h : Rests m .value v) :
    Rests m .statement (c.assignment v) := by
  refine rests_last (m := m) (show treatment .statement .assignment = .lastAs .value from rfl) ?_
  simp only [lastAs, List.forall_mem_cons]
  exact ⟨rests_reading, rests_token, h, by simp⟩

theorem rests_cast {v : Tree} {place : Position} (h : Rests m .part v) :
    Rests m role (castToString v place) := by
  refine rests_parts (by cases role <;> rfl) ?_
  simp only [List.forall_mem_cons]
  exact ⟨h, rests_token, rests_parts rfl (by simp [rests_token]), by simp⟩

theorem rests_sum (place : Position) {first : Tree} {rest : List Tree}
    (h : ∀ role, Rests m role first) (hr : ∀ t ∈ rest, ∀ role, Rests m role t) (role : Role) :
    Rests m role (sum place first rest) := by
  induction rest generalizing first with
  | nil => exact h role
  | cons next rest ih =>
    simp only [List.forall_mem_cons] at hr
    refine ih (fun role => rests_parts (by cases role <;> rfl) ?_) hr.2
    simp [h, hr.1, rests_token]

/-- A chain of one link, if the link has no `then` any more. -/
theorem rests_mutationOf {subject fragment : Tree} (hr : treatment role .mutation = .chain)
    (hn : subject.isNode = true) (hs : Rests m .operand subject)
    (hf : ∀ p ∈ fragment.parts, Rests m .part p) : Rests m role (mutationOf subject fragment) := by
  intro code base
  have hl : ∀ p ∈ linkParts fragment, Rests m .part p := fun p hp => hf p (List.mem_filter.1 hp).1
  have hfs : fragments m code base [.of .mutationFragment (linkParts fragment)] =
      pure (.all [.of .mutationFragment (linkParts fragment)]) := by
    simp [fragments, parts_rest hl, Out.all]
  have hagain : linkParts (.of .mutationFragment (linkParts fragment)) = linkParts fragment := by
    simp [linkParts, Tree.parts]
  rw [mutationOf, tree_chain hr, links_node hn, hs code base]
  simp [hfs, Out.all, chain, mutationOf, hagain]

theorem rests_firstLink {subject fragment : Tree} (hn : subject.isNode = true)
    (hs : Rests m .operand subject) (hf : ∀ p ∈ fragment.parts, Rests m .part p) :
    Rests m .value (firstLink subject fragment) := by
  unfold firstLink
  split
  · rename_i hpath
    obtain ⟨line, qs, rfl⟩ := Tree.isA_iff.1 hpath
    refine rests_parts rfl (List.forall_mem_cons.2 ⟨hs.of_treatment rfl, ?_⟩)
    exact fun p hp => hf p (List.mem_filter.1 hp).1
  · exact rests_mutationOf rfl hn hs hf

/-! ## Jobs -/

/-- What is left of a tree rests in its role, and so do the parts of a link. -/
structure LeftAtRest (m : ScanMode) (role : Role) (t t' : Tree) : Prop where
  whole : Rests m role t'
  parts : t.isA .mutationFragment = true → ∀ p ∈ t'.parts, Rests m .part p

def Job.Rest (m : ScanMode) (before left : List Tree) : Job → Prop
  | .tree role t => (∀ b ∈ before, Rests m .statement b) ∧
      ∃ t', left = [t'] ∧ LeftAtRest m role t t'
  | .row ts => (∀ b ∈ before, Rests m .statement b) ∧
      List.Forall₂ (fun p t' => LeftAtRest m p.1 p.2 t') ts left
  | .chain _ subject fragments => Rests m .operand subject →
      (∀ f ∈ fragments, ∀ p ∈ f.parts, Rests m .part p) →
      (∀ b ∈ before, Rests m .statement b) ∧
        ∀ t ∈ left, ∀ role, treatment role .mutation = .chain → Rests m role t
  | .pieces _ _ => (∀ b ∈ before, Rests m .statement b) ∧ ∀ t ∈ left, ∀ role, Rests m role t
  | .code _ => (∀ b ∈ before, Rests m .statement b) ∧ ∀ t ∈ left, Rests m .part t
  | .statements _ => (∀ b ∈ before, Rests m .statement b) ∧ ∀ t ∈ left, Rests m .statement t

variable {P : Token → Prop} {cs : List Coord} {before left : List Tree}

theorem isNode_of_fits {s : Stage} (h : t.fits s = true) : t.isNode = true := by
  obtain ⟨r, line, ps, rfl, -⟩ := Tree.fits_iff.1 h
  rfl

theorem LeftAtRest.of_rests {t' : Tree} (h : Rests m role t')
    (ht : t.isA .mutationFragment = false) : LeftAtRest m role t t' :=
  ⟨h, fun hf => by simp [ht] at hf⟩

theorem rests_row (role : Role) {ts : List (Role × Tree)}
    (h : List.Forall₂ (fun p t' => LeftAtRest m p.1 p.2 t') ts ps) (hr : ∀ p ∈ ts, p.1 = role) :
    ∀ t ∈ ps, Rests m role t :=
  forall₂_each h hr fun _ _ h hp => hp ▸ h.whole

theorem rests_lastAs {lastRole : Role} {ps' : List Tree}
    (h : List.Forall₂ (fun p t' => LeftAtRest m p.1 p.2 t') (lastAs lastRole ps) ps') :
    ∀ p ∈ lastAs lastRole ps', Rests m p.1 p.2 := by
  induction ps generalizing ps' with
  | nil =>
    cases h
    simp [lastAs]
  | cons t ps ih =>
    cases ps with
    | nil =>
      obtain ⟨t', _, ht, hnil, rfl⟩ := List.forall₂_cons_left_iff.1 h
      obtain rfl := List.forall₂_nil_left_iff.1 hnil
      simpa [lastAs] using ht.whole
    | cons u ps =>
      obtain ⟨t', ps', ht, hps, rfl⟩ := List.forall₂_cons_left_iff.1 h
      cases ps' with
      | nil => cases ps <;> simp [lastAs] at hps
      | cons u' ps' =>
        simp only [lastAs, List.forall_mem_cons]
        exact ⟨ht.whole, ih hps⟩

theorem Hoists.rest (hg : m.grammar.KeepsLayout) (hP : ∀ u : Token, u.Sound → P u) {job : Job}
    (h : Hoists m base job cs before left) :
    job.Formed P m.grammar → job.Rest m before left := by
  induction h with
  | token => exact fun _ => ⟨by simp, _, rfl, .of_rests rests_token rfl⟩
  | none => exact fun _ => ⟨by simp, .nil⟩
  | cons first others ih ih' =>
    intro hf
    obtain ⟨hb, t', h, ht⟩ := ih hf.first
    obtain rfl := List.singleton_inj.1 h
    obtain ⟨hb', hts⟩ := ih' hf.others
    exact ⟨List.forall_mem_append.2 ⟨hb, hb'⟩, .cons ht hts⟩
  | keep keeps parts ih =>
    intro hf
    obtain ⟨hb, hts⟩ := ih (hf.keeps keeps)
    obtain ⟨-, hp⟩ := parts.made hg hP (hf.keeps keeps)
    refine ⟨hb, _, rfl, ?_⟩
    cases keeps with
    | parts ht =>
      have hps := rests_row .part hts (by simp)
      exact ⟨rests_parts ht hps, fun _ => hps⟩
    | last ht =>
      refine .of_rests (rests_last ht (rests_lastAs hts)) ?_
      obtain ⟨-, ⟨rfl, -⟩ | ⟨rfl | rfl, -⟩⟩ := rule_of_last ht <;> rfl
    | values ht =>
      obtain rfl := rule_of_values ht
      cases hf.1 with
      | node content _ _ =>
        cases content with
        | expressionStatement value =>
          obtain ⟨t', _, ht', hnil, rfl⟩ := List.forall₂_cons_left_iff.1 hts
          obtain rfl := List.forall₂_nil_left_iff.1 hnil
          obtain ⟨_, _, hp, -, hl⟩ := List.forall₂_cons_left_iff.1 hp
          obtain ⟨rfl, -⟩ := List.cons.inj hl
          exact .of_rests (rests_value ht (hp.turns.plain value) ht'.whole) rfl
  | guarded h parts ih =>
    intro hf
    obtain ⟨hb, hts⟩ := ih hf.parts
    have hps := rests_row .part hts (by simp)
    obtain ⟨-, _, hl, hp⟩ := (Hoists.guarded h parts).made hg hP hf
    obtain rfl := List.singleton_inj.1 hl
    cases hp.formed with
    | node content _ _ =>
      refine ⟨hb, _, rfl, ?_⟩
      obtain rfl | rfl := rule_of_guarded h <;> cases content <;>
        exact .of_rests (rests_guarded h rfl hps) rfl
  | chain h parts links ih ih' =>
    intro hf
    obtain ⟨hb, hts⟩ := ih hf.chain
    obtain ⟨s', _, hs, hfs, hl⟩ := List.forall₂_cons_left_iff.1 hts
    obtain ⟨rfl, rfl⟩ := List.cons.inj hl
    cases hf.1 with
    | node content _ _ =>
      cases content with
      | chain value linked alone each =>
        obtain ⟨hb', ht⟩ := ih' (hf.links (parts.made hg hP hf.chain).2) hs.whole
          (forall₂_each (List.forall₂_map_left_iff.1 hfs) (List.forall_mem_cons.2 ⟨linked, each⟩)
            fun _ _ h hf => h.parts hf)
        exact ⟨List.forall_mem_append.2 ⟨hb, hb'⟩, _, rfl, .of_rests (ht _ (by simp) _ h) rfl⟩
  | out h whole ih =>
    intro hf
    obtain ⟨hb, _, hl, hv⟩ := ih (hf.out h)
    obtain rfl := List.singleton_inj.1 hl
    refine ⟨List.forall_mem_append.2 ⟨hb, by simpa using rests_assignment hv.whole⟩, _, rfl, ?_⟩
    refine .of_rests rests_reading ?_
    have hc := (rule_of_out h).2
    simp only [Tree.isA, Tree.rule?, decide_eq_false_iff_not, Option.some.injEq]
    rintro rfl
    cases hc
  | block h statements ih =>
    intro hf
    obtain ⟨hb, hts⟩ := ih (hf.statements h)
    obtain ⟨rfl, rfl⟩ := rule_of_statements h
    exact ⟨by simp, _, rfl, .of_rests (rests_block hts) rfl⟩
  | lastLink =>
    rintro ⟨-, hs, -⟩ hrs hrf
    refine ⟨by simp, List.forall_mem_singleton.2 fun role hr => ?_⟩
    exact rests_mutationOf hr (isNode_of_fits hs.2) hrs (hrf _ (by simp))
  | link others ih =>
    rintro ⟨hl, hs, hfs⟩ hrs hrf
    simp only [List.forall_mem_cons] at hfs hrf
    obtain ⟨hb, ht⟩ := ih ⟨.inr rfl, ⟨formed_reading, fits_reading⟩,
      List.forall_mem_cons.2 hfs.2⟩ rests_reading (List.forall_mem_cons.2 hrf.2)
    refine ⟨List.forall_mem_cons.2 ⟨rests_assignment ?_, hb⟩, ht⟩
    rcases hl with rfl | rfl
    · exact rests_firstLink (isNode_of_fits hs.2) hrs hrf.1
    · exact rests_mutationOf rfl (isNode_of_fits hs.2) hrs hrf.1
  | plainString h text =>
    exact fun _ => ⟨by simp, _, rfl, .of_rests (rests_text text) rfl⟩
  | string h hasCode pieces ih =>
    intro hf
    obtain ⟨hb, hts⟩ := ih hf.pieces
    simp only [List.forall_mem_cons] at hts
    exact ⟨hb, _, rfl, .of_rests (rests_sum _ hts.1 hts.2 _) rfl⟩
  | noPieces => exact fun _ => ⟨by simp, by simp⟩
  | text others ih =>
    intro hf
    obtain ⟨hb, hts⟩ := ih hf.otherPieces
    refine ⟨hb, List.forall_mem_cons.2 ⟨fun role => rests_text ?_, hts⟩⟩
    simpa using Pieces.hasCode_text (hf.2.2 _ (by simp))
  | piece read code others ih ih' =>
    intro hf
    obtain ⟨hb, hv⟩ := ih (Job.Formed.code hg hP read)
    obtain ⟨hb', hts⟩ := ih' hf.otherPieces
    refine ⟨List.forall_mem_append.2 ⟨hb, hb'⟩, List.forall_mem_cons.2 ⟨fun role => ?_, hts⟩⟩
    exact rests_cast (hv _ (by simp))
  | codePath path whole ih =>
    intro hf
    obtain ⟨hb, _, hl, hv⟩ := ih hf.whole
    obtain ⟨-, _, hl', hp⟩ := whole.made hg hP hf.whole
    obtain rfl := List.singleton_inj.1 hl
    obtain rfl := List.singleton_inj.1 hl'
    obtain ⟨line, ps, rfl⟩ := Tree.isA_iff.1 (hp.turns.isA rfl path)
    exact ⟨hb, List.forall_mem_singleton.2 (hv.whole.of_treatment rfl)⟩
  | codeOut noPath whole ih =>
    intro hf
    obtain ⟨hb, _, hl, hv⟩ := ih hf.whole
    obtain rfl := List.singleton_inj.1 hl
    refine ⟨List.forall_mem_append.2 ⟨hb, by simpa using rests_assignment hv.whole⟩, ?_⟩
    simpa using rests_reading
  | noStatements => exact fun _ => ⟨by simp, by simp⟩
  | statements first others ih ih' =>
    intro hf
    obtain ⟨hb, _, hl, ht⟩ := ih hf.statement
    obtain rfl := List.singleton_inj.1 hl
    obtain ⟨-, hts⟩ := ih' hf.otherStatements
    exact ⟨by simp, List.forall_mem_append.2 ⟨hb, List.forall_mem_cons.2 ⟨ht.whole, hts⟩⟩⟩

/-! ## Stories -/

/-- Making a story plain a second time changes nothing, whatever tokens it was read from. -/
theorem story_idempotent (hg : m.grammar.Accepted) {tokens : List Token} {u : Tree}
    (ht : Tree.ofTokens m.grammar tokens = .ok t) (h : story m t = .ok u) : story m u = .ok u := by
  obtain ⟨trees, cs, left, i, rfl, rfl, -, hformed, -, hh⟩ := story_hoists hg.keepsLayout ht h
  obtain ⟨-, hrest⟩ := hh.rest hg.keepsLayout (fun _ _ => trivial) hformed
  simp only [story, statements_rest hrest]
  rfl

/-- A chain with a call in its last link, and a string with two codes of which only one is found. -/
theorem story_idempotent_chain : Grammar.builtIn.Accepted ∧ ∃ tokens t u,
    (scan ⟨.builtIn, false⟩
        "x = a f then g y:[(s c)] z:\"\x7bb c\x7d\x7ba // it's\x7d\"\n".toList).tokens = .ok tokens ∧
      Tree.ofTokens .builtIn tokens = .ok t ∧ story ⟨.builtIn, false⟩ t = .ok u ∧ u ≠ t ∧
      story ⟨.builtIn, false⟩ u = .ok u := by
  have h : ((scan ⟨.builtIn, false⟩
      "x = a f then g y:[(s c)] z:\"\x7bb c\x7d\x7ba // it's\x7d\"\n".toList).tokens.toOption.bind
        fun tokens => (Tree.ofTokens .builtIn tokens).toOption.bind fun t =>
          (story ⟨.builtIn, false⟩ t).toOption.filter (· ≠ t)).isSome = true := by
    decide +kernel
  obtain ⟨u, h⟩ := Option.isSome_iff_exists.1 h
  obtain ⟨tokens, hs, h⟩ := Option.bind_eq_some_iff.1 h
  obtain ⟨t, ht, h⟩ := Option.bind_eq_some_iff.1 h
  obtain ⟨h, hne⟩ := Option.filter_eq_some_iff.1 h
  rw [toOption_eq_some] at hs ht h
  exact ⟨.builtIn, tokens, t, u, hs, ht, h, by simpa using hne,
    @story_idempotent ⟨.builtIn, false⟩ t .builtIn tokens u ht h⟩

end StoryLang.Hoist
