/-
Making a tree plain, as a relation, and the jobs that a story gives rise to.

`Hoists m base job cs before left` says that under the line `base` the job
takes out the assignments `before` and leaves the trees `left`, and that the
coordinates `cs` are issued for it, in this order, the ones for statements of
nested blocks included. The relation has no state, no bound and no faults, so
what holds of plain trees is proved by induction on it. That the functions
keep to it is shown in `Hoist.Sound`.

A job is formed if its trees are formed as they were read and stand where
their role says. The links of a chain are the exception: they are built from
parts that are plain already. Whatever a formed job leads to is formed too,
which the lemmas here say once for each way a job can lead to another.
-/
import StoryLang.Hoist.Basic
import StoryLang.Proofs.Hoist.Code
import StoryLang.Proofs.Hoist.Issued

namespace StoryLang

namespace Hoist

/-! ## The relation -/

/-- Something to make plain. -/
inductive Job where
  | tree (role : Role) (t : Tree)
  /-- Trees one after the other, each in its role. -/
  | row (ts : List (Role × Tree))
  /-- The links of a chain, whose parts are plain already. `link` builds the first of them. -/
  | chain (link : Tree → Tree → Tree) (subject : Tree) (fragments : List Tree)
  /-- The pieces of a string's token. -/
  | pieces (t : Token) (ps : List Piece)
  /-- The code of a string. -/
  | code (t : Tree)
  | statements (ts : List Tree)

/-- The path that reads what was taken out. -/
def reading (c : Coord) (value : Tree) : Tree := c.path (value.position?.getD .first)

/-- Parts, the last of them in a role of its own. -/
def lastAs (role : Role) : List Tree → List (Role × Tree)
  | [] => []
  | [t] => [(role, t)]
  | t :: u :: ts => (.part, t) :: lastAs role (u :: ts)

theorem lastAs_append (role : Role) (ts : List Tree) (last : Tree) :
    lastAs role (ts ++ [last]) = ts.map (.part, ·) ++ [(role, last)] := by
  induction ts with
  | nil => rfl
  | cons t ts ih => cases ts <;> simp_all [lastAs]

/-- A node that stays and the roles of its parts. -/
inductive Keeps : Role → Rule → List Tree → List (Role × Tree) → Prop where
  | parts {role rule ps} (h : treatment role rule = .parts) :
    Keeps role rule ps (ps.map (.part, ·))
  | last {role rule lastRole ps} (h : treatment role rule = .lastAs lastRole) :
    Keeps role rule ps (lastAs lastRole ps)
  | values {role rule ps} (h : treatment role rule = .values) :
    Keeps role rule ps (ps.map (.value, ·))

/-- What making something plain takes out and leaves, and the coordinates it issues. -/
inductive Hoists (m : ScanMode) : Nat → Job → List Coord → List Tree → List Tree → Prop where
  | token {base role t} : Hoists m base (.tree role (.token t)) [] [] [.token t]
  -- rows
  | none {base} : Hoists m base (.row []) [] [] []
  | cons {base role t ts cs ds before before' t' ts'}
      (first : Hoists m base (.tree role t) cs before [t'])
      (others : Hoists m base (.row ts) ds before' ts') :
    Hoists m base (.row ((role, t) :: ts)) (cs ++ ds) (before ++ before') (t' :: ts')
  -- nodes
  | keep {base role rule line ps ts cs before ps'} (keeps : Keeps role rule ps ts)
      (parts : Hoists m base (.row ts) cs before ps') :
    Hoists m base (.tree role (.node rule line ps)) cs before [.node rule line ps']
  | guarded {base role rule line ps construct cs ps'}
      (h : treatment role rule = .guarded construct)
      (parts : Hoists m base (.row (ps.map (.part, ·))) cs [] ps') :
    Hoists m base (.tree role (.node rule line ps)) cs [] [.node rule line ps']
  | chain {base role line subject fragments cs ds before before' subject' fragments' t}
      (h : treatment role .mutation = .chain)
      (parts : Hoists m base (.row ((.operand, subject) :: fragments.map (.part, ·))) cs before
        (subject' :: fragments'))
      (links : Hoists m base (.chain firstLink subject' fragments') ds before' [t]) :
    Hoists m base (.tree role (.node .mutation line (subject :: fragments))) (cs ++ ds)
      (before ++ before') [t]
  | out {base role rule line ps cs seq before value}
      (h : treatment role rule = .partsOut ∨ treatment role rule = .chainOut)
      (whole : Hoists m base (.tree .value (.node rule line ps)) cs before [value]) :
    Hoists m base (.tree role (.node rule line ps)) (cs ++ [⟨base, seq⟩])
      (before ++ [Coord.assignment ⟨base, seq⟩ value]) [reading ⟨base, seq⟩ value]
  | block {base role rule line ps cs ps'} (h : treatment role rule = .statements)
      (statements : Hoists m base (.statements ps) cs [] ps') :
    Hoists m base (.tree role (.node rule line ps)) cs [] [.node rule line ps']
  -- chains
  | lastLink {base link subject fragment} :
    Hoists m base (.chain link subject [fragment]) [] [] [mutationOf subject fragment]
  | link {base link subject fragment next fragments seq cs before t}
      (others : Hoists m base
        (.chain mutationOf (reading ⟨base, seq⟩ (link subject fragment)) (next :: fragments))
        cs before [t]) :
    Hoists m base (.chain link subject (fragment :: next :: fragments)) (⟨base, seq⟩ :: cs)
      (Coord.assignment ⟨base, seq⟩ (link subject fragment) :: before) [t]
  -- strings
  | plainString {base role line t} (h : treatment role .string = .string)
      (text : Pieces.hasCode t.literal.toList = false) :
    Hoists m base (.tree role (.node .string line [.token t])) [] []
      [.node .string line [.token t]]
  | string {base role line t cs before first rest} (h : treatment role .string = .string)
      (hasCode : Pieces.hasCode t.literal.toList = true)
      (pieces : Hoists m base (.pieces t (Pieces.split t.literal.toList)) cs before
        (first :: rest)) :
    Hoists m base (.tree role (.node .string line [.token t])) cs before
      [sum t.position first rest]
  | noPieces {base t} : Hoists m base (.pieces t []) [] [] []
  | text {base t raw ps cs before rest} (others : Hoists m base (.pieces t ps) cs before rest) :
    Hoists m base (.pieces t (.text raw :: ps)) cs before
      (.of .string [.token ⟨.string, String.ofList raw, t.position⟩] :: rest)
  | piece {base t source offset ps v cs ds before before' v' rest}
      (read : readCode m source ⟨t.line, t.column + 1 + offset⟩ = .ok v)
      (code : Hoists m base (.code v) cs before [v'])
      (others : Hoists m base (.pieces t ps) ds before' rest) :
    Hoists m base (.pieces t (.code source offset :: ps)) (cs ++ ds) (before ++ before')
      (castToString v' ⟨t.line, t.column + 1 + offset⟩ :: rest)
  | codePath {base v cs before v'} (path : v.isA .path = true)
      (whole : Hoists m base (.tree .value v) cs before [v']) :
    Hoists m base (.code v) cs before [v']
  | codeOut {base v cs seq before value} (noPath : v.isA .path = false)
      (whole : Hoists m base (.tree .value v) cs before [value]) :
    Hoists m base (.code v) (cs ++ [⟨base, seq⟩])
      (before ++ [Coord.assignment ⟨base, seq⟩ value]) [reading ⟨base, seq⟩ value]
  -- statements
  | noStatements {base} : Hoists m base (.statements []) [] [] []
  | statements {base t ts cs ds before t' ts'}
      (first : Hoists m (baseOf t) (.tree .statement t) cs before [t'])
      (others : Hoists m base (.statements ts) ds [] ts') :
    Hoists m base (.statements (t :: ts)) (cs ++ ds) [] (before ++ t' :: ts')

namespace Hoists

variable {m : ScanMode} {base : Nat} {cs : List Coord} {before left : List Tree}

theorem length_row {ts : List (Role × Tree)} (h : Hoists m base (.row ts) cs before left) :
    left.length = ts.length := by
  induction ts generalizing cs before left with
  | nil =>
    cases h
    rfl
  | cons t ts ih =>
    cases h with
    | cons _ others => simp [ih others]

end Hoists

end Hoist

end StoryLang

namespace StoryLang

/-- The value of an assignment, a `return` or a `throw` is its last part. -/
theorem Content.lastFits {g : Grammar} {rule : Rule} {ps : List Tree} {last : Tree}
    (h : Content P g .read rule ps) (hl : ps.getLast? = some last)
    (hr : rule = .assignment ∨ rule = .returnStatement ∨ rule = .throwStatement)
    (hn : last.isNode = true) : last.fits .read = true := by
  rcases hr with rfl | rfl | rfl <;> cases h <;> simp at hl <;> subst hl
  case assignment v _ value =>
    cases v <;> simp_all [Tree.fits, Tree.isCall, Tree.rule?]
  all_goals assumption

namespace Hoist

/-- The trees of a job. The code of a string is not among its trees. -/
def Job.input : Job → List Tree
  | .tree _ t | .code t => [t]
  | .row ts => ts.map Prod.snd
  | .chain _ subject fragments => subject :: fragments
  | .pieces _ _ => []
  | .statements ts => ts

/-- The trees that can stand in a role. -/
def Role.admits (role : Role) (t : Tree) : Prop :=
  match role with
  | .statement => t.isStatement = true
  | .value | .operand => t.isNode = true → t.fits .read = true
  | .part => True

/-- A tree in a role inside a statement. -/
structure Inside (P : Token → Prop) (g : Grammar) (p : Role × Tree) : Prop where
  role : p.1 ≠ .statement
  formed : Formed P g .read p.2
  admits : p.1.admits p.2

def Job.Formed (P : Token → Prop) (g : Grammar) : Job → Prop
  | .tree role t => StoryLang.Formed P g .read t ∧ role.admits t
  | .row ts => ∀ p ∈ ts, Inside P g p
  | .chain link subject fragments =>
    (link = firstLink ∨ link = mutationOf) ∧
      (StoryLang.Formed P g .plain subject ∧ subject.fits .plain = true) ∧
      ∀ f ∈ fragments, StoryLang.Formed P g .plain f ∧ f.isA .mutationFragment = true
  | .pieces t ps => t.kind = .string ∧ P t ∧
      ∀ p ∈ ps, p ∈ Pieces.split t.literal.toList
  | .code v => StoryLang.Formed P g .read v ∧ v.fits .read = true
  | .statements ts => ∀ t ∈ ts, StoryLang.Formed P g .read t ∧ t.isStatement = true

variable {P : Token → Prop} {m : ScanMode} {g : Grammar} {role : Role} {rule : Rule} {line : Option Coord}
  {ps : List Tree}

/-! ## Rules by treatment -/

section Rules

attribute [local simp] treatment asOperand asValue

theorem rule_of_chain (h : treatment role rule = .chain) : rule = .mutation := by
  cases role <;> cases rule <;> simp_all

theorem rule_of_values (h : treatment role rule = .values) : rule = .expressionStatement := by
  cases role <;> cases rule <;> simp_all

theorem rule_of_string (h : treatment role rule = .string) : rule = .string := by
  cases role <;> cases rule <;> simp_all

theorem rule_of_statements (h : treatment role rule = .statements) :
    role = .part ∧ rule = .block := by
  cases role <;> cases rule <;> simp_all

theorem rule_of_guarded {construct : String} (h : treatment role rule = .guarded construct) :
    rule = .whileBlock ∨ rule = .elifBlock := by
  cases role <;> cases rule <;> simp_all

theorem rule_of_last {lastRole : Role} (h : treatment role rule = .lastAs lastRole) :
    role = .statement ∧ (rule = .assignment ∧ lastRole = .value ∨
      (rule = .returnStatement ∨ rule = .throwStatement) ∧ lastRole = .operand) := by
  cases role <;> cases rule <;> simp_all

theorem rule_of_out (h : treatment role rule = .partsOut ∨ treatment role rule = .chainOut) :
    (role = .operand ∨ role = .part) ∧ rule.isCall = true := by
  cases role <;> cases rule <;> simp_all [Rule.isCall]

/-- Where a call may stay, its parts or its links are made plain. -/
theorem treatment_call (h : rule.isCall = true) :
    treatment .value rule = .parts ∨ treatment .value rule = .chain := by
  cases rule <;> simp_all [Rule.isCall]

end Rules

/-! ## From job to job -/

namespace Job.Formed

theorem parts (h : (Job.tree role (.node rule line ps)).Formed P g) :
    (Job.row (ps.map (.part, ·))).Formed P g := by
  intro p hp
  obtain ⟨t, ht, rfl⟩ := List.mem_map.1 hp
  cases h.1 with
  | node _ _ parts => exact ⟨by simp, parts t ht, trivial⟩

theorem keeps {ts : List (Role × Tree)} (h : (Job.tree role (.node rule line ps)).Formed P g)
    (hk : Keeps role rule ps ts) : (Job.row ts).Formed P g := by
  cases hk with
  | parts ht => exact h.parts
  | @last lastRole _ ht =>
    obtain rfl | ⟨front, last, rfl⟩ := List.eq_nil_or_concat ps
    · exact fun p hp => absurd hp (List.not_mem_nil)
    · rw [List.concat_eq_append] at *
      have hrow := h.parts
      obtain ⟨hf, -⟩ := h
      cases hf with
      | node content own parts =>
        have hadmits : lastRole ≠ .statement ∧ lastRole.admits last := by
          have hlast : (front ++ [last]).getLast? = some last := by simp
          obtain ⟨-, ⟨rfl, rfl⟩ | ⟨hr, rfl⟩⟩ := rule_of_last ht
          · exact ⟨by simp, fun hn => content.lastFits hlast (.inl rfl) hn⟩
          · exact ⟨by simp, fun hn => content.lastFits hlast (.inr hr) hn⟩
        rw [List.map_append] at hrow
        rw [lastAs_append]
        refine List.forall_mem_append.2 ⟨(List.forall_mem_append.1 hrow).1, ?_⟩
        exact List.forall_mem_singleton.2 ⟨hadmits.1, parts last (by simp), hadmits.2⟩
  | values ht =>
    obtain rfl := rule_of_values ht
    cases h.1 with
    | node content own parts =>
      cases content with
      | expressionStatement value =>
        intro p hp
        obtain rfl := List.mem_singleton.1 hp
        exact ⟨by simp, parts _ (by simp), fun _ => Tree.fits_read value⟩

theorem first {p : Role × Tree} {ts : List (Role × Tree)} (h : (Job.row (p :: ts)).Formed P g) :
    (Job.tree p.1 p.2).Formed P g :=
  have hp := h p (by simp)
  ⟨hp.formed, hp.admits⟩

theorem others {p : Role × Tree} {ts : List (Role × Tree)} (h : (Job.row (p :: ts)).Formed P g) :
    (Job.row ts).Formed P g :=
  fun q hq => h q (by simp [hq])

/-- The subject and the fragments of a chain. -/
theorem chain {subject : Tree} {fragments : List Tree}
    (h : (Job.tree role (.node .mutation line (subject :: fragments))).Formed P g) :
    (Job.row ((.operand, subject) :: fragments.map (.part, ·))).Formed P g := by
  have hrow := h.parts
  cases h.1 with
  | node content own parts =>
    cases content with
    | chain value linked alone each =>
      exact List.forall_mem_cons.2 ⟨⟨by simp, parts _ (by simp), fun _ => value⟩, hrow.others⟩

/-- A call that is taken out, where it may stay. -/
theorem out (h : (Job.tree role (.node rule line ps)).Formed P g)
    (ht : treatment role rule = .partsOut ∨ treatment role rule = .chainOut) :
    (Job.tree .value (.node rule line ps)).Formed P g :=
  ⟨h.1, fun _ => by simp [Tree.fits, Tree.rule?, (rule_of_out ht).2]⟩

theorem statements (h : (Job.tree role (.node rule line ps)).Formed P g)
    (ht : treatment role rule = .statements) : (Job.statements ps).Formed P g := by
  obtain ⟨-, rfl⟩ := rule_of_statements ht
  cases h.1 with
  | node content own parts =>
    cases content with
    | block each => exact fun t ht => ⟨parts t ht, each t ht⟩

theorem statement {t : Tree} {ts : List Tree} (h : (Job.statements (t :: ts)).Formed P g) :
    (Job.tree .statement t).Formed P g :=
  h t (by simp)

theorem otherStatements {t : Tree} {ts : List Tree} (h : (Job.statements (t :: ts)).Formed P g) :
    (Job.statements ts).Formed P g :=
  fun u hu => h u (by simp [hu])

theorem pieces {t : Token} (h : (Job.tree role (.node .string line [.token t])).Formed P g) :
    (Job.pieces t (Pieces.split t.literal.toList)).Formed P g := by
  cases h.1 with
  | node content own parts =>
    cases content with
    | string kind sound => exact ⟨kind, sound rfl, fun _ hm => hm⟩

theorem otherPieces {t : Token} {p : Piece} {ps : List Piece}
    (h : (Job.pieces t (p :: ps)).Formed P g) : (Job.pieces t ps).Formed P g :=
  ⟨h.1, h.2.1, fun q hm => h.2.2 q (by simp [hm])⟩

/-- What is read from the code of a string that stays on its line. -/
theorem isCode (hg : m.grammar.KeepsLayout) {t : Token} {source : List Char} {offset : Nat}
    {ps : List Piece} {v : Tree}
    (h : (Job.pieces t (.code source offset :: ps)).Formed P m.grammar) (hs : t.Sound)
    (hv : readCode m source ⟨t.line, t.column + 1 + offset⟩ = .ok v) :
    ∃ used, IsCode m.grammar ⟨t.line, t.column + 1 + offset⟩ source.length v used := by
  obtain ⟨kind, -, each⟩ := h
  refine readCode_ok hg (fun hnl => hs.string kind ?_) hv
  obtain ⟨pre, post, hraw, -⟩ := Pieces.mem_split (each _ List.mem_cons_self)
  simp [hraw, hnl]

/-- What is read from the code of any string is formed. -/
theorem code (hg : m.grammar.KeepsLayout) (hP : ∀ u : Token, u.Sound → P u)
    {source : List Char} {start : Position} {v : Tree} (hv : readCode m source start = .ok v) : (Job.code v).Formed P m.grammar := by
  obtain ⟨tokens, used, hs, hp, hd⟩ := readCode_derives hg hv
  obtain ⟨hfits, hf⟩ := hd.formed_one fun u hu => hP u (sound_moved hs hp u hu)
  exact ⟨hf, hfits.1⟩

theorem whole {v : Tree} (h : (Job.code v).Formed P g) : (Job.tree .value v).Formed P g :=
  ⟨h.1, fun _ => h.2⟩

end Job.Formed

end Hoist

end StoryLang
