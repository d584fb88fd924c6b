/-
The normal form of a story.

Once a story is plain, a call stands only as a statement or as the value of an
assignment, every mutation has one link, no link has a `then`, and no string
holds code. Where calls stand follows from the form of plain trees. That the
rest holds of every node is carried through the relation: what is left of a
link keeps its `then` until the chain it belongs to is taken apart.
-/
import StoryLang.Proofs.Hoist.Plain
import StoryLang.Proofs.Hoist.Sound
import StoryLang.Proofs.Tree.Names
import StoryLang.Proofs.Tree.Outline
import StoryLang.Proofs.Tree.Reading.Statement

namespace StoryLang

/-- What a node of a story is like in normal form. -/
structure Normal (rule : Rule) (ps : List Tree) : Prop where
  /-- A call is a statement of a list, or the last part of an assignment. -/
  calls : ∀ front call rest, ps = front ++ call :: rest → call.isCall = true →
    rule = .start ∨ rule = .block ∨ rule = .assignment ∧ rest = []
  oneLink : rule = .mutation → ps.countP (·.isA .mutationFragment) = 1
  noThen : rule = .mutationFragment → ∀ t, .token t ∈ ps → t.kind ≠ .keyword .thenWord
  noCode : rule = .string → ∀ t, .token t ∈ ps → Pieces.hasCode t.literal.toList = false
  noWrap : rule = .expressionStatement → ∀ p ∈ ps, p.isCall = false

variable {P : Token → Prop} {g : Grammar} {s : Stage} {rule : Rule} {ps : List Tree}

/-! ## Where calls and links stand -/

namespace Tree

/-- A part that is no link, and no call unless calls may stand anywhere. -/
def sits (s : Stage) (t : Tree) : Bool :=
  t.rule?.all fun r => r ≠ .mutationFragment && (s = .read || !r.isCall)

theorem sits_token (t : Token) : (token t).sits s = true := rfl

theorem sits_fits {t : Tree} (h : t.fits s = true) : t.sits s = true := by
  obtain ⟨r, line, ps, rfl, hv | ⟨rfl, hc⟩⟩ := fits_iff.1 h
  · cases r <;> simp_all [sits, rule?, Rule.isValue, Rule.isCall]
  · cases r <;> simp_all [sits, rule?, Rule.isCall]

theorem sits_value {t : Tree} (h : t.fits .plain = true) : t.sits s = true := by
  obtain ⟨r, line, ps, rfl, hv | ⟨hs, -⟩⟩ := fits_iff.1 h
  · cases r <;> simp_all [sits, rule?, Rule.isValue, Rule.isCall]
  · cases hs

theorem sits_isA {r : Rule} {t : Tree} (h : t.isA r = true)
    (hr : r ≠ .mutationFragment ∧ r.isCall = false) : t.sits s = true := by
  obtain ⟨line, ps, rfl⟩ := isA_iff.1 h
  simp [sits, rule?, hr]

theorem sits_plain {t : Tree} (h : t.sits .plain = true) : t.isCall = false := by
  cases t <;> simp_all [sits, isCall, rule?]

theorem sits_link {t : Tree} (h : t.sits s = true) : t.isA .mutationFragment = false := by
  cases t <;> simp_all [sits, isA, rule?]

end Tree

theorem Extras.sits {extra : List Tree} (h : Extras extra) : ∀ p ∈ extra, p.sits s = true := by
  intro p hp
  rcases h.each p hp with h | h <;> exact Tree.sits_isA h ⟨by simp, rfl⟩

open StoryLang.Tree in
/-- The parts of most nodes are no links, and in a plain tree no calls. -/
theorem Content.sits (h : Content P g s rule ps) (hm : rule ≠ .mutation) (hb : rule ≠ .block)
    (ha : rule ≠ .assignment) : ∀ p ∈ ps, p.sits s = true := by
  cases h with
  | chain | mutation => exact absurd rfl hm
  | block => exact absurd rfl hb
  | assignment => exact absurd rfl ha
  | number | string | boolean | null | field | returnAlone | throwAlone | breakOff | continueOn =>
    simp [sits_token]
  | list each => simpa [sits_token, or_imp, forall_and] using fun t ht => sits_fits (each t ht)
  | map each | path _ each | types _ each =>
    simpa [sits_token, or_imp, forall_and] using fun t ht => sits_isA (each t ht) ⟨by simp, rfl⟩
  | mapItem keyed value => simpa using ⟨sits_fits keyed, sits_fits value⟩
  | index _ value _ | unary value | argument _ value | returnValue value | throwValue value =>
    simpa [sits_token] using sits_fits value
  | cast value types =>
    simpa [sits_token] using ⟨sits_fits value, sits_isA types ⟨by simp, rfl⟩⟩
  | binary first _ second => simpa [sits_token] using ⟨sits_fits first, sits_fits second⟩
  | functionCall _ arguments | link _ arguments | furtherLink _ _ arguments =>
    simpa [sits_token] using sits_isA arguments ⟨by simp, rfl⟩
  | serviceCall path _ arguments extras =>
    simp only [List.forall_mem_cons]
    exact ⟨sits_isA path ⟨by simp, rfl⟩, sits_token _, sits_isA arguments ⟨by simp, rfl⟩,
      extras.sits⟩
  | arguments each => exact fun t ht => sits_isA (each t ht) ⟨by simp, rfl⟩
  | output each =>
    refine List.forall_mem_cons.2 ⟨sits_token _, fun t ht => ?_⟩
    have := each t ht
    cases t <;> simp_all [Tree.isNode, sits_token]
  | expressionStatement value | importFile value _ => simpa [sits_token] using sits_value value
  | ifBlock value block each =>
    simp only [List.forall_mem_cons]
    refine ⟨sits_token _, sits_fits value, sits_isA block ⟨by simp, rfl⟩, fun t ht => ?_⟩
    rcases each t ht with h | h <;> exact sits_isA h ⟨by simp, rfl⟩
  | elifBlock value block | whileBlock value block =>
    simpa [sits_token] using ⟨sits_fits value, sits_isA block ⟨by simp, rfl⟩⟩
  | elseBlock block | catchBlock block | finallyBlock block | parameter block | returns block =>
    simpa [sits_token] using sits_isA block ⟨by simp, rfl⟩
  | foreachBlock value output block =>
    simpa [sits_token] using ⟨sits_fits value, sits_isA output ⟨by simp, rfl⟩,
      sits_isA block ⟨by simp, rfl⟩⟩
  | tryBlock block each =>
    simp only [List.forall_mem_cons]
    refine ⟨sits_token _, sits_isA block ⟨by simp, rfl⟩, fun t ht => ?_⟩
    rcases each t ht with h | h <;> exact sits_isA h ⟨by simp, rfl⟩
  | catchAs output block =>
    simpa [sits_token] using ⟨sits_isA output ⟨by simp, rfl⟩, sits_isA block ⟨by simp, rfl⟩⟩
  | functionBlock _ each block =>
    simp only [List.cons_append, List.forall_mem_cons, List.forall_mem_append]
    refine ⟨sits_token _, sits_token _, fun t ht => ?_, sits_isA block ⟨by simp, rfl⟩, by simp⟩
    rcases each t ht with h | h <;> exact sits_isA h ⟨by simp, rfl⟩
  | whenBlock path arguments block =>
    simpa [sits_token] using ⟨sits_isA path ⟨by simp, rfl⟩, sits_isA arguments ⟨by simp, rfl⟩,
      sits_isA block ⟨by simp, rfl⟩⟩
  | whenAs path arguments output block =>
    simpa [sits_token] using ⟨sits_isA path ⟨by simp, rfl⟩, sits_isA arguments ⟨by simp, rfl⟩,
      sits_isA output ⟨by simp, rfl⟩, sits_isA block ⟨by simp, rfl⟩⟩

/-! ## Links and strings -/

/-- A node that is no link with a `then` and no string with code. -/
structure Tree.BareNode (n : Tree) : Prop where
  noThen : n.isA .mutationFragment = true → ∀ t, .token t ∈ n.parts → t.kind ≠ .keyword .thenWord
  noCode : n.isA .string = true → ∀ t, .token t ∈ n.parts → Pieces.hasCode t.literal.toList = false

/-- Every node is bare. -/
def Tree.Bare (t : Tree) : Prop := ∀ n ∈ t.walk, n.BareNode

namespace Tree

theorem bare_token (t : Token) : (token t).Bare := by simp [Bare, walk]

theorem bare_node {line : Option Coord} : (node rule line ps).Bare ↔
    (node rule line ps).BareNode ∧ ∀ p ∈ ps, p.Bare :=
  forall_mem_walk

theorem bareNode_other {line : Option Coord} (hf : rule ≠ .mutationFragment) (hs : rule ≠ .string) :
    (node rule line ps).BareNode := by
  constructor <;> intro h <;> simp_all [isA, rule?]

end Tree

/-- Whatever the parts of a node that was read are, only those of a chain are links. -/
theorem Content.noLink (h : Content P g .read rule ps) (hm : rule ≠ .mutation) :
    ∀ p ∈ ps, p.isA .mutationFragment = false := by
  by_cases hb : rule = .block
  · subst hb
    cases h with
    | block each => exact fun p hp => Tree.isStatement_isA (each p hp) rfl
  by_cases ha : rule = .assignment
  · subst ha
    cases h with
    | assignment path value =>
      simp only [List.forall_mem_cons]
      refine ⟨Tree.isA_ne path (by simp), rfl, ?_, by simp⟩
      rcases value with value | value
      · exact Tree.sits_link (Tree.sits_fits value)
      · exact Tree.isStatement_isA (Tree.isStatement_of_isCall value) rfl
  · exact fun p hp => Tree.sits_link (h.sits hm hb ha p hp)

namespace Hoist

open StoryLang.Tree

/-- What is left of a tree is bare, save that what is left of a link may have its `then`. -/
structure Bares (t t' : Tree) : Prop where
  whole : t.isA .mutationFragment = false → t'.Bare
  parts : ∀ p ∈ t'.parts, p.Bare

def Job.Bares (before left : List Tree) : Job → Prop
  | .tree _ t => (∀ b ∈ before, b.Bare) ∧ ∃ t', left = [t'] ∧ Hoist.Bares t t'
  | .row ts => (∀ b ∈ before, b.Bare) ∧ List.Forall₂ (fun p t' => Hoist.Bares p.2 t') ts left
  | .chain _ subject fragments => subject.Bare → (∀ f ∈ fragments, ∀ p ∈ f.parts, p.Bare) →
      (∀ b ∈ before, b.Bare) ∧ ∀ t ∈ left, t.Bare
  | .pieces _ _ | .code _ | .statements _ => (∀ b ∈ before, b.Bare) ∧ ∀ t ∈ left, t.Bare

variable {m : ScanMode} {base : Nat} {cs : List Coord} {before left : List Tree} {role : Role}

theorem Bares.of_bare {t t' : Tree} (h : t'.Bare) : Bares t t' := by
  refine ⟨fun _ => h, ?_⟩
  cases t' with
  | token t => simp [Tree.parts]
  | node => exact (bare_node.1 h).2

theorem bare_reading (c : Coord) (v : Tree) : (reading c v).Bare :=
  bare_node.2 ⟨bareNode_other (by simp) (by simp), by simp [bare_token]⟩

theorem bare_assignment {c : Coord} {v : Tree} (h : v.Bare) : (c.assignment v).Bare := by
  refine bare_node.2 ⟨bareNode_other (by simp) (by simp), ?_⟩
  simp only [List.forall_mem_cons]
  exact ⟨bare_reading c v, bare_token _, h, by simp⟩

theorem bare_mutationOf {subject fragment : Tree} (hs : subject.Bare)
    (hf : ∀ p ∈ fragment.parts, p.Bare) : (mutationOf subject fragment).Bare := by
  have hl : ∀ p ∈ linkParts fragment, p.Bare := fun p hp => hf p (List.mem_filter.1 hp).1
  refine bare_node.2 ⟨bareNode_other (by simp) (by simp), ?_⟩
  simp only [List.forall_mem_cons]
  refine ⟨hs, bare_node.2 ⟨⟨fun _ t ht => ?_, fun h => by simp [isA, rule?] at h⟩, hl⟩, by simp⟩
  simpa [asToken?] using (List.mem_filter.1 ht).2

theorem bare_firstLink {subject fragment : Tree} (hs : subject.Bare)
    (hf : ∀ p ∈ fragment.parts, p.Bare) : (firstLink subject fragment).Bare := by
  unfold firstLink
  split
  · refine bare_node.2 ⟨bareNode_other (by simp) (by simp), List.forall_mem_cons.2 ⟨hs, ?_⟩⟩
    exact fun p hp => hf p (List.mem_filter.1 hp).1
  · exact bare_mutationOf hs hf

theorem bare_sum (place : Position) {first : Tree} {rest : List Tree} (h : first.Bare)
    (hr : ∀ t ∈ rest, t.Bare) : (sum place first rest).Bare := by
  induction rest generalizing first with
  | nil => exact h
  | cons next rest ih =>
    simp only [List.forall_mem_cons] at hr
    refine ih (bare_node.2 ⟨bareNode_other (by simp) (by simp), ?_⟩) hr.2
    simp [h, hr.1, bare_token]

theorem bare_cast {v : Tree} {place : Position} (h : v.Bare) : (castToString v place).Bare := by
  refine bare_node.2 ⟨bareNode_other (by simp) (by simp), ?_⟩
  simp only [List.forall_mem_cons]
  refine ⟨h, bare_token _, bare_node.2 ⟨bareNode_other (by simp) (by simp), ?_⟩, by simp⟩
  simp [bare_token]

theorem Keeps.ne_string {line : Option Coord} {ts : List (Role × Tree)} (h : Keeps role rule ps ts)
    (ha : role.admits (.node rule line ps)) : rule ≠ .string := by
  rintro rfl
  cases h <;> rename_i ht <;> cases role <;>
    simp_all [treatment, asOperand, asValue, Role.admits, Tree.isStatement, Tree.rule?,
      Rule.isStatement]

/-- The parts that are left of a node that is no chain. -/
theorem bare_parts {line : Option Coord} {ts : List (Role × Tree)} {ps' : List Tree}
    (hf : Formed P g .read (.node rule line ps)) (hm : rule ≠ .mutation)
    (hts : ts.map Prod.snd = ps) (h : List.Forall₂ (fun p t' => Bares p.2 t') ts ps') :
    ∀ p ∈ ps', p.Bare := by
  cases hf with
  | node content _ _ =>
    have hlink := content.noLink hm
    rw [← hts] at hlink
    exact forall₂_each h (fun p hp => hlink p.2 (List.mem_map_of_mem hp)) fun _ _ h hp => h.whole hp

theorem Hoists.bares (hg : m.grammar.KeepsLayout) (hP : ∀ u : Token, u.Sound → P u) {job : Job}
    (h : Hoists m base job cs before left) :
    job.Formed P m.grammar → job.Bares before left := by
  induction h with
  | token => exact fun _ => ⟨by simp, _, rfl, .of_bare (bare_token _)⟩
  | none => exact fun _ => ⟨by simp, .nil⟩
  | cons first others ih ih' =>
    intro hf
    obtain ⟨hb, t', h, ht⟩ := ih hf.first
    obtain rfl := List.singleton_inj.1 h
    obtain ⟨hb', hts⟩ := ih' hf.others
    exact ⟨List.forall_mem_append.2 ⟨hb, hb'⟩, .cons ht hts⟩
  | keep keeps parts ih =>
    intro hf
    obtain ⟨hb, hts⟩ := ih (hf.keeps keeps)
    have hps := bare_parts hf.1 (keeps.rule_ne hf.2).2 keeps.parts_eq hts
    refine ⟨hb, _, rfl, fun hl => bare_node.2 ⟨bareNode_other ?_ (keeps.ne_string hf.2), hps⟩, hps⟩
    simpa [isA, rule?] using hl
  | guarded h parts ih =>
    intro hf
    obtain ⟨hb, hts⟩ := ih hf.parts
    have hr := rule_of_guarded h
    have hps := bare_parts hf.1 (by rcases hr with rfl | rfl <;> simp) (by simp [Function.comp_def]) hts
    refine ⟨hb, _, rfl, .of_bare (bare_node.2 ⟨?_, hps⟩)⟩
    rcases hr with rfl | rfl <;> exact bareNode_other (by simp) (by simp)
  | chain h parts links ih ih' =>
    intro hf
    obtain ⟨hb, hts⟩ := ih hf.chain
    obtain ⟨-, hp⟩ := parts.made hg hP hf.chain
    cases hf.1 with
    | node content _ _ =>
      cases content with
      | chain value linked alone each =>
        cases hts with
        | cons hs hfs =>
          obtain ⟨hb', ht⟩ := ih' (hf.links hp) (hs.whole (sits_link (sits_fits value)))
            (forall₂_each hfs (p := fun _ => True) (by simp) fun _ _ h _ => h.parts)
          exact ⟨List.forall_mem_append.2 ⟨hb, hb'⟩, _, rfl, .of_bare (ht _ (by simp))⟩
  | out h whole ih =>
    intro hf
    obtain ⟨hb, _, hl, hv⟩ := ih (hf.out h)
    obtain rfl := List.singleton_inj.1 hl
    have hv := hv.whole (by
      have := (rule_of_out h).2
      simp only [isA, rule?, decide_eq_false_iff_not, Option.some.injEq]
      rintro rfl
      cases this)
    refine ⟨List.forall_mem_append.2 ⟨hb, by simpa using bare_assignment hv⟩, _, rfl, ?_⟩
    exact .of_bare (bare_reading _ _)
  | block h statements ih =>
    intro hf
    obtain ⟨-, hts⟩ := ih (hf.statements h)
    obtain ⟨-, rfl⟩ := rule_of_statements h
    exact ⟨by simp, _, rfl, .of_bare (bare_node.2 ⟨bareNode_other (by simp) (by simp), hts⟩)⟩
  | lastLink =>
    intro _ hs hfs
    exact ⟨by simp, by simpa using bare_mutationOf hs (hfs _ (by simp))⟩
  | link others ih =>
    rintro ⟨hl, hs, hfs⟩ hbs hbf
    simp only [List.forall_mem_cons] at hfs hbf
    obtain ⟨hb, ht⟩ := ih ⟨.inr rfl, ⟨formed_reading, fits_reading⟩,
      List.forall_mem_cons.2 hfs.2⟩ (bare_reading _ _) (List.forall_mem_cons.2 hbf.2)
    refine ⟨List.forall_mem_cons.2 ⟨bare_assignment ?_, hb⟩, ht⟩
    rcases hl with rfl | rfl
    · exact bare_firstLink hbs hbf.1
    · exact bare_mutationOf hbs hbf.1
  | plainString h text =>
    intro _
    refine ⟨by simp, _, rfl, .of_bare (bare_node.2 ⟨⟨fun h => by simp [isA, rule?] at h, ?_⟩, ?_⟩)⟩
    · simpa [Tree.parts] using fun _ => text
    · simp [bare_token]
  | string h hasCode pieces ih =>
    intro hf
    obtain ⟨hb, hts⟩ := ih hf.pieces
    simp only [List.forall_mem_cons] at hts
    exact ⟨hb, _, rfl, .of_bare (bare_sum _ hts.1 hts.2)⟩
  | noPieces => exact fun _ => ⟨by simp, by simp⟩
  | text others ih =>
    intro hf
    obtain ⟨hb, hts⟩ := ih hf.otherPieces
    refine ⟨hb, List.forall_mem_cons.2 ⟨bare_node.2 ⟨⟨fun h => by simp [isA, rule?] at h, ?_⟩, ?_⟩, hts⟩⟩
    · simpa [Tree.parts] using fun _ => Pieces.hasCode_text (hf.2.2 _ List.mem_cons_self)
    · simp [bare_token]
  | piece read code others ih ih' =>
    intro hf
    obtain ⟨hb, hv⟩ := ih (Job.Formed.code hg hP read)
    obtain ⟨hb', hts⟩ := ih' hf.otherPieces
    exact ⟨List.forall_mem_append.2 ⟨hb, hb'⟩,
      List.forall_mem_cons.2 ⟨bare_cast (hv _ (by simp)), hts⟩⟩
  | codePath path whole ih =>
    intro hf
    obtain ⟨hb, _, hl, hv⟩ := ih hf.whole
    obtain rfl := List.singleton_inj.1 hl
    exact ⟨hb, by simpa using hv.whole (sits_link (sits_fits hf.2))⟩
  | codeOut noPath whole ih =>
    intro hf
    obtain ⟨hb, _, hl, hv⟩ := ih hf.whole
    obtain rfl := List.singleton_inj.1 hl
    have hv := hv.whole (sits_link (sits_fits hf.2))
    exact ⟨List.forall_mem_append.2 ⟨hb, by simpa using bare_assignment hv⟩,
      by simpa using bare_reading _ _⟩
  | noStatements => exact fun _ => ⟨by simp, by simp⟩
  | statements first others ih ih' =>
    intro hf
    obtain ⟨hb, _, hl, ht⟩ := ih hf.statement
    obtain rfl := List.singleton_inj.1 hl
    obtain ⟨-, hts⟩ := ih' hf.otherStatements
    refine ⟨by simp, List.forall_mem_append.2 ⟨hb, List.forall_mem_cons.2 ⟨ht.whole ?_, hts⟩⟩⟩
    exact isStatement_isA hf.statement.2 rfl

end Hoist

/-! ## Normal form -/

theorem Content.normal_calls (h : Content P g .plain rule ps) {front rest : List Tree} {call : Tree}
    (hps : ps = front ++ call :: rest) (hc : call.isCall = true) :
    rule = .start ∨ rule = .block ∨ rule = .assignment ∧ rest = [] := by
  have hmem : call ∈ ps := by simp [hps]
  by_cases hb : rule = .block
  · exact .inr (.inl hb)
  by_cases hm : rule = .mutation
  · subst hm
    cases h with
    | mutation value linked extras =>
      simp only [List.mem_cons] at hmem
      rcases hmem with rfl | rfl | hmem
      · rw [Tree.sits_plain (Tree.sits_fits value)] at hc
        cases hc
      · obtain ⟨line, qs, rfl⟩ := Tree.isA_iff.1 linked
        cases hc
      · rw [Tree.sits_plain (extras.sits call hmem)] at hc
        cases hc
  by_cases ha : rule = .assignment
  · subst ha
    refine .inr (.inr ⟨rfl, ?_⟩)
    cases h with
    | assignment path value =>
      obtain ⟨line, qs, rfl⟩ := Tree.isA_iff.1 path
      match front with
      | [] =>
        obtain ⟨rfl, -⟩ := List.cons.inj hps
        cases hc
      | [_] =>
        obtain ⟨rfl, -⟩ := List.cons.inj (List.cons.inj hps).2
        cases hc
      | [_, _] => exact (List.cons.inj (List.cons.inj (List.cons.inj hps).2).2).2.symm
      | _ :: _ :: _ :: _ => simp at hps
  · rw [Tree.sits_plain (h.sits hm hb ha call hmem)] at hc
    cases hc

/-- A bare node of a plain tree is normal. -/
theorem Content.normal {line : Option Coord} (h : Content P g .plain rule ps)
    (hn : (Tree.node rule line ps).BareNode) : Normal rule ps where
  calls _ _ _ hps hc := h.normal_calls hps hc
  oneLink hr := by
    subst hr
    cases h with
    | mutation value linked extras =>
      rw [List.countP_cons_of_neg (by simp [Tree.sits_link (Tree.sits_fits value)]),
        List.countP_cons_of_pos linked, List.countP_eq_zero.2 fun p hp => ?_]
      simp [Tree.sits_link (@Extras.sits .plain _ extras p hp)]
  noThen hr := by
    subst hr
    exact hn.noThen (by simp [Tree.isA, Tree.rule?])
  noCode hr := by
    subst hr
    exact hn.noCode (by simp [Tree.isA, Tree.rule?])
  noWrap hr := by
    subst hr
    exact fun p hp => Tree.sits_plain (h.sits (by simp) (by simp) (by simp) p hp)

/-- What is left of a story that was read, from whatever tokens, is in normal form. -/
theorem Hoist.story_normal {m : ScanMode} (hg : m.grammar.Accepted) {tokens : List Token}
    {t t' : Tree} (ht : Tree.ofTokens m.grammar tokens = .ok t) (h : story m t = .ok t') :
    t'.isA .start = true ∧ ∀ rule line ps, .node rule line ps ∈ t'.walk → Normal rule ps := by
  obtain ⟨trees, cs, left, i, rfl, rfl, -, hformed, -, hh⟩ := story_hoists hg.keepsLayout ht h
  obtain ⟨-, hplain⟩ := hh.made hg.keepsLayout (fun _ _ => trivial) hformed
  obtain ⟨-, hbare⟩ := hh.bares hg.keepsLayout (fun _ _ => trivial) hformed
  refine ⟨rfl, fun rule line ps hn => ?_⟩
  simp only [Tree.walk, List.mem_cons, Tree.walkAll_eq, List.mem_flatMap] at hn
  rcases hn with hn | ⟨t', ht', hn⟩
  · obtain ⟨rfl, -, rfl⟩ : rule = .start ∧ line = none ∧ ps = left := by simpa using hn
    exact ⟨fun _ _ _ _ _ => .inl rfl, by simp, by simp, by simp, by simp⟩
  · cases (hplain t' ht').1.of_mem_walk _ hn with
    | node content _ _ => exact content.normal (hbare t' ht' _ hn)

/-- A chain with a call and a code in its last link. -/
theorem Hoist.story_normal_chain : Grammar.builtIn.Accepted ∧ ∃ tokens t t',
    (scan ⟨.builtIn, false⟩ "x = a f then g y:[(s c)] z:\"\x7bb c\x7d\"\n".toList).tokens = .ok tokens ∧
      Tree.ofTokens .builtIn tokens = .ok t ∧ story ⟨.builtIn, false⟩ t = .ok t' ∧
      t'.isA .start = true ∧ ∀ rule line ps, .node rule line ps ∈ t'.walk → Normal rule ps := by
  have h : ((scan ⟨.builtIn, false⟩
      "x = a f then g y:[(s c)] z:\"\x7bb c\x7d\"\n".toList).tokens.toOption.bind fun tokens =>
        (Tree.ofTokens .builtIn tokens).toOption.bind fun t =>
          (story ⟨.builtIn, false⟩ t).toOption).isSome = true := by
    decide +kernel
  obtain ⟨t', h⟩ := Option.isSome_iff_exists.1 h
  obtain ⟨tokens, hs, h⟩ := Option.bind_eq_some_iff.1 h
  obtain ⟨t, ht, h⟩ := Option.bind_eq_some_iff.1 h
  rw [toOption_eq_some] at hs ht h
  exact ⟨.builtIn, tokens, t, t', hs, ht, h, @story_normal ⟨.builtIn, false⟩ .builtIn _ _ _ ht h⟩

end StoryLang
