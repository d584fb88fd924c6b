/-
Operators are told apart by what they are compiled to.

An operator between two operands has an operation of its own, and so has `not`.
Every other operator before an operand is compiled to the same operation. The
built-in grammar has one of them, but a grammar may declare more, and before a
value that could be anything each passes the check.

The operator of an operation on one value is one that the grammar declares for
that: it was read as one, making the tree plain leaves it in front of its
operand, and so does checking.
-/
import StoryLang.Proofs.Check.Again.Statement
import StoryLang.Proofs.Script.ToldApart
import StoryLang.Proofs.Story.Outline
import StoryLang.Proofs.Story.Sourced

namespace StoryLang

/-! ## Operators before an operand -/

namespace Tree

/-- The operators before an operand are the grammar's. -/
def Signed (g : Grammar) (t : Tree) : Prop :=
  ∀ n ∈ t.walk, n.isA .unaryExpression = true → KindAt n.parts 0 fun k => (g.operators.before? k).isSome

variable {g : Grammar} {rule : Rule} {line : Option Coord} {ps : List Tree} {t u : Tree}

@[simp] theorem signed_token {v : Token} : (token v).Signed g := fun _ hn => absurd hn List.not_mem_nil

@[simp] theorem signed_node : (node rule line ps).Signed g ↔
    (rule = .unaryExpression → KindAt ps 0 fun k => (g.operators.before? k).isSome) ∧
      ∀ p ∈ ps, p.Signed g := by
  simp only [Signed, walk, walkAll_eq, List.mem_cons, List.mem_flatMap, forall_eq_or_imp,
    forall_exists_index, and_imp]
  refine and_congr (by simp [isA, rule?, parts]) ⟨fun h p hp n hn => h n p hp hn, ?_⟩
  exact fun h n p hp hn => h p hp n hn

theorem Signed.part (h : (node rule line ps).Signed g) : ∀ p ∈ ps, p.Signed g := (signed_node.1 h).2

/-- A node that is no operation on one operand. -/
theorem signed_of_parts (hr : rule ≠ .unaryExpression) (h : ∀ p ∈ ps, p.Signed g) :
    (node rule line ps).Signed g :=
  signed_node.2 ⟨fun he => absurd he hr, h⟩

end Tree

theorem Derives.signed {g : Grammar} {p : Phrase} {ts : List Token} {trees : List Tree}
    (h : Derives g p ts trees) : ∀ t ∈ trees, t.Signed g := by
  intro t ht n hn hr
  obtain ⟨line, ps, rfl⟩ := Tree.isA_iff.1 hr
  have hmarked := h.marked (.node .unaryExpression line ps) (by
    rw [Tree.walkAll_eq]
    exact List.mem_flatMap.2 ⟨t, ht, hn⟩)
  simpa [Tree.Marked, Tree.parts] using hmarked

namespace Hoist

variable {m : ScanMode} {base : Nat} {cs : List Coord} {before left : List Tree} {g : Grammar}
  {t subject fragment first : Tree}

theorem signed_linkParts (h : fragment.Signed g) : ∀ p ∈ linkParts fragment, p.Signed g := by
  intro p hp
  have hp := (List.mem_filter.1 hp).1
  cases fragment with
  | token => cases hp
  | node => exact h.part p hp

theorem signed_mutationOf (hs : subject.Signed g) (hf : fragment.Signed g) :
    (mutationOf subject fragment).Signed g := by
  refine Tree.signed_of_parts (by simp) (List.forall_mem_cons.2 ⟨hs, List.forall_mem_singleton.2 ?_⟩)
  exact Tree.signed_of_parts (by simp) (signed_linkParts hf)

theorem signed_firstLink (hs : subject.Signed g) (hf : fragment.Signed g) :
    (firstLink subject fragment).Signed g := by
  unfold firstLink
  split
  · exact Tree.signed_of_parts (by simp) (List.forall_mem_cons.2 ⟨hs, signed_linkParts hf⟩)
  · exact signed_mutationOf hs hf

theorem signed_castToString (h : t.Signed g) (place : Position) : (castToString t place).Signed g := by
  simp [castToString, h]

theorem signed_sum (place : Position) {rest : List Tree} (h : first.Signed g)
    (hs : ∀ t ∈ rest, t.Signed g) : (sum place first rest).Signed g := by
  induction rest generalizing first with
  | nil => exact h
  | cons next rest ih =>
    obtain ⟨hnext, hs⟩ := List.forall_mem_cons.1 hs
    exact ih (by simp [h, hnext]) hs

/-- What is taken out and what reads it. -/
theorem signed_takenOut {c : Coord} {value : Tree} (hb : ∀ t ∈ before, t.Signed g)
    (hl : ∀ t ∈ [value], t.Signed g) : (∀ t ∈ before ++ [c.assignment value], t.Signed g) ∧
      ∀ t ∈ [reading c value], t.Signed g := by
  have hvalue := List.forall_mem_singleton.1 hl
  refine ⟨List.forall_mem_append.2 ⟨hb, List.forall_mem_singleton.2 ?_⟩, List.forall_mem_singleton.2 ?_⟩
  · simp [Coord.assignment, Coord.path, hvalue]
  · simp [reading, Coord.path]

theorem readCode_signed (hg : m.grammar.KeepsLayout) {source : List Char} {start : Position}
    (h : readCode m source start = .ok t) : t.Signed m.grammar := by
  obtain ⟨_, _, -, -, hd⟩ := readCode_derives hg h
  exact hd.signed t (by simp)

/-- An operation on one operand keeps its operator. -/
theorem Keeps.signed {P : Token → Prop} {role : Role} {line : Option Coord} {ps ps' : List Tree}
    {ts : List (Role × Tree)} (hf : Formed P g .read (.node .unaryExpression line ps))
    (hs : (Tree.node .unaryExpression line ps).Signed g) (hk : Keeps role .unaryExpression ps ts)
    (h : Hoists m base (.row ts) cs before ps') :
    Tree.KindAt ps' 0 fun k => (g.operators.before? k).isSome := by
  cases hf with
  | node content _ _ =>
    cases content with
    | unary =>
      cases hk with
      | parts =>
        obtain ⟨_, _, _, rfl, -⟩ := h.row_token
        simpa using (Tree.signed_node.1 hs).1 rfl
      | last ht =>
        obtain ⟨-, ⟨hr, -⟩ | ⟨hr | hr, -⟩⟩ := rule_of_last ht <;> cases hr
      | values ht => cases rule_of_values ht

/-- Making trees plain keeps the operators before operands, and what is read from codes has the
grammar's. -/
theorem Hoists.signed (hg : m.grammar.KeepsLayout) {job : Job} (h : Hoists m base job cs before left) :
    job.Formed (fun _ => True) m.grammar → (∀ t ∈ job.input, t.Signed m.grammar) →
      (∀ t ∈ before, t.Signed m.grammar) ∧ ∀ t ∈ left, t.Signed m.grammar := by
  induction h with
  | token => exact fun _ _ => ⟨by simp, by simp⟩
  | none => exact fun _ _ => ⟨by simp, by simp⟩
  | cons first others ih ih' =>
    intro hf hs
    obtain ⟨hfirst, hothers⟩ := List.forall_mem_cons.1 hs
    obtain ⟨hb, hl⟩ := ih hf.first (List.forall_mem_singleton.2 hfirst)
    obtain ⟨hb', hl'⟩ := ih' hf.others hothers
    exact ⟨List.forall_mem_append.2 ⟨hb, hb'⟩, List.forall_mem_cons.2 ⟨hl _ (by simp), hl'⟩⟩
  | @keep base role rule line ps ts cs before ps' keeps parts ih =>
    intro hf hs
    have hs := List.forall_mem_singleton.1 hs
    obtain ⟨hb, hl⟩ := ih (hf.keeps keeps) (by
      rw [show (Job.row ts).input = ps from keeps.parts_eq]
      exact hs.part)
    refine ⟨hb, List.forall_mem_singleton.2 (Tree.signed_node.2 ⟨?_, hl⟩)⟩
    rintro rfl
    exact keeps.signed hf.1 hs parts
  | guarded h parts ih =>
    intro hf hs
    have hs := List.forall_mem_singleton.1 hs
    obtain ⟨hb, hl⟩ := ih hf.parts (by simpa [Job.input] using hs.part)
    refine ⟨hb, List.forall_mem_singleton.2 (Tree.signed_of_parts ?_ hl)⟩
    rintro rfl
    rcases rule_of_guarded h with hr | hr <;> cases hr
  | chain h parts links ih ih' =>
    intro hf hs
    have hs := (List.forall_mem_singleton.1 hs).part
    obtain ⟨hb, hl⟩ := ih hf.chain (by simpa [Job.input] using hs)
    obtain ⟨-, hmade⟩ := parts.made hg (fun _ _ => trivial) hf.chain
    obtain ⟨hb', hl'⟩ := ih' (hf.links hmade) hl
    exact ⟨List.forall_mem_append.2 ⟨hb, hb'⟩, hl'⟩
  | out h whole ih =>
    intro hf hs
    obtain ⟨hb, hl⟩ := ih (hf.out h) hs
    exact signed_takenOut hb hl
  | block h statements ih =>
    intro hf hs
    obtain ⟨-, rfl⟩ := rule_of_statements h
    obtain ⟨-, hl⟩ := ih (hf.statements h) (List.forall_mem_singleton.1 hs).part
    exact ⟨by simp, List.forall_mem_singleton.2 (Tree.signed_of_parts (by simp) hl)⟩
  | lastLink =>
    intro _ hs
    obtain ⟨hsubject, hfragments⟩ := List.forall_mem_cons.1 hs
    exact ⟨by simp, List.forall_mem_singleton.2 (signed_mutationOf hsubject (hfragments _ (by simp)))⟩
  | @link base link subject fragment next fragments seq cs before t others ih =>
    rintro ⟨hlink, hplain, hplains⟩ hs
    obtain ⟨hsubject, hfragments⟩ := List.forall_mem_cons.1 hs
    obtain ⟨hfirst, hrest⟩ := List.forall_mem_cons.1 hfragments
    have hmade : (link subject fragment).Signed m.grammar := by
      rcases hlink with rfl | rfl
      · exact signed_firstLink hsubject hfirst
      · exact signed_mutationOf hsubject hfirst
    have hnone : ∀ t ∈ ([] : List Tree), t.Signed m.grammar := List.forall_mem_nil _
    obtain ⟨htaken, hread⟩ := signed_takenOut (c := ⟨base, seq⟩) hnone (List.forall_mem_singleton.2 hmade)
    obtain ⟨hb, hl⟩ := ih ⟨.inr rfl, ⟨formed_reading, fits_reading⟩, (List.forall_mem_cons.1 hplains).2⟩
      (List.forall_mem_cons.2 ⟨List.forall_mem_singleton.1 hread, hrest⟩)
    exact ⟨List.forall_mem_append.2 ⟨htaken, hb⟩, hl⟩
  | plainString => exact fun _ hs => ⟨by simp, hs⟩
  | string h hasCode pieces ih =>
    intro hf _
    obtain ⟨hb, hl⟩ := ih hf.pieces (by simp [Job.input])
    obtain ⟨hfirst, hrest⟩ := List.forall_mem_cons.1 hl
    exact ⟨hb, List.forall_mem_singleton.2 (signed_sum _ hfirst hrest)⟩
  | noPieces => exact fun _ _ => ⟨by simp, by simp⟩
  | text others ih =>
    intro hf hs
    obtain ⟨hb, hl⟩ := ih hf.otherPieces hs
    exact ⟨hb, List.forall_mem_cons.2 ⟨by simp, hl⟩⟩
  | piece read code others ih ih' =>
    intro hf hs
    obtain ⟨hb, hl⟩ := ih (Job.Formed.code hg (fun _ _ => trivial) read)
      (List.forall_mem_singleton.2 (readCode_signed hg read))
    obtain ⟨hb', hl'⟩ := ih' hf.otherPieces hs
    exact ⟨List.forall_mem_append.2 ⟨hb, hb'⟩,
      List.forall_mem_cons.2 ⟨signed_castToString (List.forall_mem_singleton.1 hl) _, hl'⟩⟩
  | codePath path whole ih => exact fun hf hs => ih hf.whole hs
  | codeOut noPath whole ih =>
    intro hf hs
    obtain ⟨hb, hl⟩ := ih hf.whole hs
    exact signed_takenOut hb hl
  | noStatements => exact fun _ _ => ⟨by simp, by simp⟩
  | statements first others ih ih' =>
    intro hf hs
    obtain ⟨hfirst, hothers⟩ := List.forall_mem_cons.1 hs
    obtain ⟨hb, hl⟩ := ih hf.statement (List.forall_mem_singleton.2 hfirst)
    obtain ⟨-, hl'⟩ := ih' hf.otherStatements hothers
    exact ⟨by simp, List.forall_mem_append.2 ⟨hb, List.forall_mem_cons.2 ⟨hl _ (by simp), hl'⟩⟩⟩

end Hoist

namespace Check

variable {g : Grammar}

/-- A token at the head of a row stays there. -/
theorem TurnedAll.kindAt {ps ps' : List Tree} {P : TokenKind → Prop} (h : TurnedAll ps ps')
    (hk : Tree.KindAt ps 0 P) : Tree.KindAt ps' 0 P := by
  cases h with
  | nil => exact hk
  | cons first _ =>
    cases first with
    | token => simpa using hk
    | node | call => simp [Tree.KindAt]

mutual

/-- Checking keeps the operators before operands. -/
theorem Turned.signed : ∀ t t' : Tree, Turned t t' → t.Signed g → t'.Signed g
  | .token _, _, .token, h => h
  | .node _ _ ps, .node _ _ ps', .node parts, h => by
    rw [Tree.signed_node] at h ⊢
    exact ⟨fun hr => TurnedAll.kindAt parts (h.1 hr), TurnedAll.signed ps ps' parts h.2⟩
  | .node _ _ (subject :: _ :: given :: extra), .node _ _ (subject' :: .node _ _ [_, given'] :: extra'),
    .call first arguments others, h => by
    have hparts := h.part
    have hgiven := Turned.signed given given' arguments (hparts given (by simp))
    refine Tree.signed_of_parts (by simp) (List.forall_mem_cons.2
      ⟨Turned.signed subject subject' first (hparts subject (by simp)), List.forall_mem_cons.2 ⟨?_, ?_⟩⟩)
    · simp [hgiven]
    · exact TurnedAll.signed extra extra' others fun p hp => hparts p (by simp [hp])

theorem TurnedAll.signed : ∀ ps ps' : List Tree, TurnedAll ps ps' → (∀ p ∈ ps, p.Signed g) →
    ∀ p ∈ ps', p.Signed g
  | [], _, .nil, h => h
  | p :: ps, p' :: ps', .cons first rest, h => by
    rw [List.forall_mem_cons] at h ⊢
    exact ⟨Turned.signed p p' first h.1, TurnedAll.signed ps ps' rest h.2⟩

end

end Check

namespace Story

variable {s : Story} {o : Options} {m : ScanMode} {tokens : List Token} {t : Tree}

theorem hoisted_signed (hg : m.grammar.KeepsLayout) (ht : hoistedTreeOf m tokens = .ok t) :
    t.Signed m.grammar := by
  obtain ⟨u, hu, ht⟩ := ok_of_bind ht
  obtain ⟨trees, cs, left, i, rfl, rfl, hd, hformed, -, hh⟩ := Hoist.story_hoists hg hu ht
  exact Tree.signed_of_parts (by simp) (hh.signed hg hformed hd.signed).2

/-- The checked tree of a story, and the stages it went through. -/
theorem compile_checked (h : (s.compile o).tree = some t) : ∃ f tokens u analysis,
    s.features o = .ok f ∧ (s.scanned (modeOf o f)).tokens = .ok tokens ∧
    hoistedTreeOf (modeOf o f) tokens = .ok u ∧ Check.story f o.registry o.scope u = .ok (t, analysis) := by
  unfold compile at h
  dsimp only at h
  split at h
  · cases h
  · rename_i f hf
    split at h
    · cases h
    · rename_i tokens hs
      split at h
      · cases h
      · rename_i u hu
        unfold check at h
        split at h
        · cases h
        · rename_i t' analysis hc
          have ht : t' = t := by
            unfold finish at h
            split at h
            · exact Option.some.inj h
            · split at h
              · cases h
              · exact Option.some.inj h
          exact ⟨f, tokens, u, analysis, hf, hs, hu, ht ▸ hc⟩

/-- The statements of the checked tree of a story, with the operators of its grammar. -/
theorem compile_signed (hg : o.grammarInUse.Accepted) (h : (s.compile o).tree = some t) :
    ∃ trees, t = .of .start trees ∧
      ∀ p ∈ trees, Formed Token.Sound o.grammarInUse .plain p ∧ p.Signed o.grammarInUse := by
  obtain ⟨f, tokens, u, analysis, -, hs, hu, hc⟩ := compile_checked h
  have hsigned := hoisted_signed (m := modeOf o f) hg.keepsLayout hu
  have hgives := hoistedTreeOf_gives (m := modeOf o f) hg.keepsLayout hs
  rw [hu] at hgives
  obtain ⟨trees, lines, rfl, hp⟩ := hgives
  have hchecked := hp.checked f o.registry o.scope
  rw [hc] at hchecked
  obtain ⟨-, trees', rfl, hp'⟩ := hchecked
  obtain ⟨hturned, -⟩ := Check.stable_story (fun p hm => (hp.formed p hm).1) hc
  exact ⟨trees', rfl, fun p hm => ⟨(hp'.formed p hm).1, (hturned.signed _ _ hsigned).part p hm⟩⟩

end Story

/-! ## What operators are compiled to -/

/-- An operator before an operand that is not the one for truth values. -/
def Grammar.Negates (g : Grammar) (k : TokenKind) : Prop :=
  (g.operators.before? k).isSome ∧ k ≠ .keyword .notWord

/-- What the operators of a grammar do: between their operands or before their operand. -/
inductive Grammar.Does (g : Grammar) : TokenKind → Operation → Prop where
  | between {k operation} (between : Operation.between? k = some operation) : Does g k operation
  | before {k} (declared : (g.operators.before? k).isSome) : Does g k (.before k)

/-- No operator between operands does what one before an operand does. -/
theorem between?_ne_before (k k' : TokenKind) : Operation.between? k ≠ some (.before k') := by
  have hall : ∀ k ∈ TokenKind.all, Operation.between? k ≠ some .not ∧ Operation.between? k ≠ some .negative := by
    decide +kernel
  obtain ⟨hnot, hnegative⟩ := hall k (TokenKind.mem_all k)
  unfold Operation.before
  split
  · exact hnot
  · exact hnegative

/-- An operator is told by what it does, save for those that negate. -/
theorem Grammar.Does.told {g : Grammar} {k k' : TokenKind} {operation : Operation}
    (h : g.Does k operation) (h' : g.Does k' operation) : k' = k ∨ g.Negates k ∧ g.Negates k' := by
  cases h with
  | between hb =>
    cases h' with
    | between hb' => exact .inl (Value.between?_inj hb hb').1
    | before => exact absurd hb (between?_ne_before _ _)
  | before hd =>
    revert h'
    generalize ho : Operation.before k = operation
    rintro (hb' | hd')
    · exact absurd (hb'.trans (congrArg some ho.symm)) (between?_ne_before _ _)
    · unfold Operation.before at ho
      by_cases hk : k = .keyword .notWord <;> by_cases hk' : k' = .keyword .notWord <;>
        simp [hk, hk'] at ho
      · exact .inl (hk'.trans hk.symm)
      · exact .inr ⟨⟨hd, hk⟩, hd', hk'⟩

variable {g : Grammar} {P : Token → Prop} {n : Tree} {u : Token} {operation : Operation} {vs : List Value}

/-- An operation of a plain tree does what its operator does. -/
theorem does_of_value (hf : Formed P g .plain n) (hs : n.Signed g)
    (hr : n.isA .unaryExpression = true ∨ n.isA .binaryExpression = true)
    (hu : Value.operator? n.parts = some u) (hv : Value.ofTree n = .ok (.expression operation vs)) :
    g.Does u.kind operation := by
  rcases hr with hr | hr
  · obtain ⟨line, ps, rfl⟩ := Tree.isA_iff.1 hr
    obtain ⟨operator, hop, hv⟩ := ok_of_bind hv
    obtain rfl : u = operator := by
      rw [show Value.operator? ps = some u from hu] at hop
      exact Except.ok.inj hop
    split at hv
    · cases hv
    · obtain ⟨ws, -, hv⟩ := ok_of_bind hv
      obtain ⟨rfl, -⟩ := Value.expression.inj (Except.ok.inj hv)
      cases hf with
      | node content _ _ =>
        cases content with
        | unary =>
          obtain rfl := Option.some.inj hu
          exact .before (by simpa using (Tree.signed_node.1 hs).1 rfl)
  · obtain ⟨line, ps, rfl⟩ := Tree.isA_iff.1 hr
    obtain ⟨operator, hop, hv⟩ := ok_of_bind hv
    obtain rfl : u = operator := by
      rw [show Value.operator? ps = some u from hu] at hop
      exact Except.ok.inj hop
    obtain ⟨ws, -, hv⟩ := ok_of_bind hv
    obtain ⟨operation', hdoes, hv⟩ := ok_of_bind hv
    obtain ⟨rfl, -⟩ := Value.expression.inj (Except.ok.inj hv)
    cases hb : Operation.between? u.kind with
    | none => simp [hb, Value.orDefect] at hdoes
    | some _ =>
      rw [hb] at hdoes
      obtain rfl := Except.ok.inj hdoes
      exact .between hb

namespace Story

/-- A story compiles under the grammar, and an operation with that operator in it is compiled to that
expression. -/
inductive Compiles (g : Grammar) : TokenKind → Operation → List Value → Prop where
  | operation {s : Story} {o : Options} {t n : Tree} {u : Token} {operation : Operation}
      {values : List Value} (grammar : o.grammarInUse = g) (success : (s.compile o).isSuccess = true)
      (checked : (s.compile o).tree = some t) (node : n ∈ t.walk)
      (rule : n.isA .unaryExpression = true ∨ n.isA .binaryExpression = true)
      (operator : Value.operator? n.parts = some u)
      (value : Value.ofTree n = .ok (.expression operation values)) :
    Compiles g u.kind operation values

variable {k k' : TokenKind} {operation' : Operation} {vs' : List Value}

theorem Compiles.does (hg : g.Accepted) (h : Compiles g k operation vs) : g.Does k operation := by
  cases h with
  | operation grammar _ checked node rule operator value =>
    subst grammar
    obtain ⟨trees, rfl, hp⟩ := compile_signed hg checked
    rw [Tree.walk, List.mem_cons, Tree.walkAll_eq, List.mem_flatMap] at node
    rcases node with rfl | ⟨p, hm, hn⟩
    · rcases rule with hr | hr <;> cases hr
    · obtain ⟨hf, hs⟩ := hp p hm
      refine does_of_value (hf.of_mem_walk _ hn) (fun q hq => hs q ?_) rule operator value
      exact Tree.walk_subset p hn hq

/-- Operators of stories under one grammar that are compiled to expressions of one name are the same,
save for operators before an operand that are not `not`: all of these are compiled to one name. -/
theorem compiles_told (hg : g.Accepted) (h : Compiles g k operation vs) (h' : Compiles g k' operation' vs')
    (hname : operation'.name = operation.name) : k' = k ∨ g.Negates k ∧ g.Negates k' := by
  obtain rfl := Operation.name_inj hname
  exact (h.does hg).told (h'.does hg)

/-- The operation of an expression, and how many values it has. -/
def expression? : Except Fault Value → Option (Operation × Nat)
  | .ok (.expression operation values) => some (operation, values.length)
  | _ => none

/-- What an operator before an operand is compiled to in a story that compiles, where it comes first. -/
def expressionOf? (s : Story) (o : Options) (k : TokenKind) : Option (Operation × Nat) :=
  if (s.compile o).isSuccess then
    (s.compile o).tree.bind fun t =>
      (t.walk.find? fun n => n.isA .unaryExpression && (Value.operator? n.parts).any (·.kind = k)).bind
        fun n => expression? (Value.ofTree n)
  else none

theorem compiles_of {s : Story} {o : Options} {count : Nat} (hg : o.grammarInUse = g)
    (h : s.expressionOf? o k = some (operation, count)) :
    ∃ values, values.length = count ∧ Compiles g k operation values := by
  unfold expressionOf? at h
  split at h
  · rename_i hs
    obtain ⟨t, ht, hfind⟩ := Option.bind_eq_some_iff.1 h
    obtain ⟨n, hn, hexpression⟩ := Option.bind_eq_some_iff.1 hfind
    have hfound := List.find?_some hn
    rw [Bool.and_eq_true, Option.any_eq_true] at hfound
    obtain ⟨hr, u, hu, hk⟩ := hfound
    obtain rfl : u.kind = k := of_decide_eq_true hk
    cases hv : Value.ofTree n with
    | error fault => simp [hv, expression?] at hexpression
    | ok v =>
      cases v <;> simp [hv, expression?] at hexpression
      obtain ⟨rfl, rfl⟩ := hexpression
      exact ⟨_, rfl, .operation hg hs ht (List.mem_of_find?_eq_some hn) (.inl hr) hu hv⟩
  · cases h

/-- A number and a variable are negated by the same operator. -/
theorem compiles_told_negative : ∃ values values', Grammar.builtIn.Accepted ∧
    Compiles .builtIn (.symbol .minus) .negative values ∧
    Compiles .builtIn (.symbol .minus) .negative values' ∧
    (TokenKind.symbol .minus = .symbol .minus ∨
      Grammar.builtIn.Negates (.symbol .minus) ∧ Grammar.builtIn.Negates (.symbol .minus)) := by
  have h : (unnamed "x = -1\n").expressionOf? .standard (.symbol .minus) = some (.negative, 1) := by
    decide +kernel
  have h' : (unnamed "x = 1\ny = -x\n").expressionOf? .standard (.symbol .minus) = some (.negative, 1) := by
    decide +kernel
  obtain ⟨values, -, hc⟩ := compiles_of rfl h
  obtain ⟨values', -, hc'⟩ := compiles_of rfl h'
  exact ⟨values, values', .builtIn, hc, hc', compiles_told .builtIn hc hc' rfl⟩

/-- The lines of a small grammar with two signs. -/
def signedLines : List (List Char) :=
  (Keyword.all.map fun k => "keyword ".toList ++ k.name.toList ++ ' ' :: k.name.toList) ++
    ["unary 8 - +", "cast 9"].map String.toList

/-- The grammar of these lines. -/
def signedGrammar : Grammar :=
  { Grammar.builtIn with
    source := String.ofList (['\n'].intercalate signedLines)
    operators := ⟨[], [⟨.symbol .minus, 8, .right⟩, ⟨.symbol .plus, 8, .right⟩]⟩
    reserved := []
    typeNames := [] }

theorem accepted_signedGrammar : signedGrammar.Accepted := by
  have hlines : Text.lines signedGrammar.source.toList = signedLines := by
    rw [show signedGrammar.source = String.ofList (['\n'].intercalate signedLines) from rfl,
      String.toList_ofList]
    decide +kernel
  have hread : (Grammar.empty signedGrammar.source).readLines 1 signedLines = .ok signedGrammar := by
    rfl
  exact .spelled (Grammar.ofSource_ok (hlines ▸ hread) (fun k => by cases k <;> decide) (by decide))

/-- Of a value that could be anything both signs give the negative. -/
theorem compiles_signed : ∃ values values', signedGrammar.Accepted ∧
    Compiles signedGrammar (.symbol .plus) .negative values ∧
    Compiles signedGrammar (.symbol .minus) .negative values' ∧
    values'.length = values.length ∧ TokenKind.symbol .plus ≠ .symbol .minus := by
  have hplus : (unnamed "s c as a\nx = + a\ny = - a\n").expressionOf?
      { Options.standard with grammar := some signedGrammar } (.symbol .plus) = some (.negative, 1) := by
    decide +kernel
  have hminus : (unnamed "s c as a\nx = + a\ny = - a\n").expressionOf?
      { Options.standard with grammar := some signedGrammar } (.symbol .minus) = some (.negative, 1) := by
    decide +kernel
  obtain ⟨values, hcount, hc⟩ := compiles_of rfl hplus
  obtain ⟨values', hcount', hc'⟩ := compiles_of rfl hminus
  exact ⟨values, values', accepted_signedGrammar, hc, hc', hcount'.trans hcount.symm, by simp⟩

end Story

end StoryLang
