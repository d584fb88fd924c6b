/-
What a formed job leaves is plain.

A tree keeps its rule unless it is a call that is taken out or a string with
code, and the line of its first token in any case. So what is left of the
parts of a node can stand in their place.
-/
import StoryLang.Proofs.Hoist.Job
import StoryLang.Proofs.Tree.Alike

namespace StoryLang

namespace Hoist

/-- The rules of what is left of a node of a rule. -/
def leaves (role : Role) (rule : Rule) : List Rule :=
  match treatment role rule with
  | .partsOut | .chainOut => [.path]
  | .string => [.string, .cast, .binaryExpression]
  | _ => [rule]

/-- What is left in the place of a tree. -/
inductive Turns (role : Role) : Tree → Tree → Prop where
  | token {t} : Turns role (.token t) (.token t)
  | node {rule line ps rule' ps'} (left : rule' ∈ leaves role rule) :
    Turns role (.node rule line ps) (.node rule' none ps')

/-- What is left of a tree is plain, and starts on the same line if no string
has lines of its own. -/
structure Plain (P : Token → Prop) (g : Grammar) (role : Role) (t t' : Tree) : Prop where
  formed : Formed P g .plain t'
  turns : Turns role t t'
  line : (∀ u : Token, P u → u.Sound) → t.isA .block = false → t'.startLine? = t.startLine?

variable {P : Token → Prop} {g : Grammar} {m : ScanMode} {base : Nat} {cs ds : List Coord} {before left : List Tree}
  {role : Role} {t t' : Tree} {rule : Rule} {ps ps' : List Tree}

/-! ## Rules -/

theorem leaves_stays (hr : rule.stays = true) : leaves role rule = [rule] := by
  cases role <;> cases rule <;>
    simp_all [leaves, treatment, asOperand, asValue, Rule.stays, Rule.isCall]

theorem leaves_inside (hr : role = .operand ∨ role = .part) {rule' : Rule}
    (h : rule' ∈ leaves role rule) (hv : rule.isValue = true ∨ rule.isCall = true) :
    rule'.isValue = true := by
  rcases hr with rfl | rfl <;> cases rule <;>
    simp_all [leaves, treatment, asOperand, Rule.isCall, Rule.isValue] <;>
    rcases h with rfl | rfl | rfl <;> rfl

theorem leaves_value {rule' : Rule} (h : rule' ∈ leaves role rule) (hv : rule.isValue = true) :
    rule'.isValue = true := by
  cases role <;> cases rule <;>
    simp_all [leaves, treatment, asOperand, asValue, Rule.isValue] <;>
    rcases h with rfl | rfl | rfl <;> rfl

theorem leaves_call {rule' : Rule} (h : rule' ∈ leaves .value rule) (hv : rule.isCall = true) :
    rule'.isCall = true := by
  cases rule <;> simp_all [leaves, treatment, asValue, Rule.isCall]

theorem leaves_statement (hr : rule.isStatement = true) : leaves .statement rule = [rule] := by
  cases rule <;> simp_all [leaves, treatment, Rule.isStatement]

/-- Neither the rule of a node that stays nor that of a guarded one changes. -/
theorem leaves_keeps {ts : List (Role × Tree)} (h : Keeps role rule ps ts) :
    leaves role rule = [rule] := by
  cases h <;> rename_i ht <;> simp [leaves, ht]

namespace Turns

theorem isA {r : Rule} (h : Turns role t t') (hr : r.stays = true) (ht : t.isA r = true) :
    t'.isA r = true := by
  obtain ⟨line, ps, rfl⟩ := Tree.isA_iff.1 ht
  cases h with
  | node left =>
    rw [leaves_stays hr] at left
    simpa [Tree.isA, Tree.rule?] using left

theorem plain (h : Turns role t t') (ht : t.fits .plain = true) : t'.fits .plain = true := by
  obtain ⟨r, line, ps, rfl, hv⟩ := Tree.fits_iff.1 ht
  cases h with
  | node left => simpa [Tree.fits, Tree.rule?] using leaves_value left (by simpa using hv)

theorem fits (h : Turns role t t') (hr : role = .operand ∨ role = .part)
    (ht : t.fits .read = true) : t'.fits .plain = true := by
  obtain ⟨r, line, ps, rfl, hv⟩ := Tree.fits_iff.1 ht
  cases h with
  | node left => simpa [Tree.fits, Tree.rule?] using leaves_inside hr left (by simpa using hv)

/-- Where a call may stay, a value or a call is left. -/
theorem value (h : Turns .value t t') (ht : t.fits .read = true) :
    t'.fits .plain = true ∨ t'.isCall = true := by
  obtain ⟨r, line, ps, rfl, hv | ⟨-, hc⟩⟩ := Tree.fits_iff.1 ht
  · have hp : (Tree.node r line ps).fits .plain = true := by simp [Tree.fits, Tree.rule?, hv]
    exact .inl (h.plain hp)
  · cases h with
    | node left => exact .inr (by simpa [Tree.isCall, Tree.rule?] using leaves_call left hc)

theorem statement (h : Turns .statement t t') (ht : t.isStatement = true) :
    t'.isStatement = true := by
  cases h with
  | token => exact ht
  | node left =>
    simp only [Tree.isStatement, Tree.rule?, Option.any_some] at *
    rw [leaves_statement ht, List.mem_singleton] at left
    rwa [left]

theorem ownLine (h : Turns role t t') : t'.ownLine? = none := by
  cases h <;> rfl

theorem settled (h : Turns role t t') (hr : role = .operand ∨ role = .part) :
    Settled .read t t' where
  token := by
    rintro u rfl
    cases h
    rfl
  isA := h.isA
  value := h.plain
  fits := h.fits hr
  call := by
    rintro (ht | ht)
    · exact .inl (h.fits hr ht)
    · refine .inl (h.fits hr ?_)
      cases t <;> simp_all [Tree.fits, Tree.isCall, Tree.rule?]

end Turns

/-! ## First tokens -/

/-- The path that reads a value starts where the value does. -/
theorem startLine_reading {c : Coord} {v : Tree} (h : v.firstToken?.isSome = true) :
    (reading c v).startLine? = v.startLine? := by
  obtain ⟨u, hu⟩ := Option.isSome_iff_exists.1 h
  simp [reading, Tree.startLine?, Tree.position?, Coord.path, Tree.firstToken?, Tree.firstTokenOf?,
    hu, Token.line]

/-! ## Plain parts -/

theorem formed_reading {c : Coord} {v : Tree} : Formed P g .plain (reading c v) :=
  .of (.path rfl (by simp)) (by simp [Formed.token])

theorem fits_reading {s : Stage} {c : Coord} {v : Tree} : (reading c v).fits s = true := rfl

/-- The link of a plain fragment. -/
theorem linkParts_eq (line : Option Coord) (h : Content P g .plain .mutationFragment ps)
    (hf : ∀ p ∈ ps, Formed P g .plain p) :
    ∃ name given, linkParts (.node .mutationFragment line ps) = [.token name, given] ∧
      name.kind = .name ∧ given.isA .arguments = true ∧ Formed P g .plain given := by
  cases h with
  | @link _ name given named arguments =>
    refine ⟨name, given, ?_, named, arguments, hf given (by simp)⟩
    cases given <;> simp_all [linkParts, Tree.parts, Tree.asToken?, Tree.isA, Tree.rule?]
  | @furtherLink _ word name given kind named arguments =>
    refine ⟨name, given, ?_, named, arguments, hf given (by simp)⟩
    cases given <;> simp_all [linkParts, Tree.parts, Tree.asToken?, Tree.isA, Tree.rule?]

/-- A link of a chain, as it is taken out. -/
theorem formed_link {link : Tree → Tree → Tree} {subject fragment : Tree}
    (hl : link = firstLink ∨ link = mutationOf)
    (hs : Formed P g .plain subject ∧ subject.fits .plain = true)
    (hf : Formed P g .plain fragment ∧ fragment.isA .mutationFragment = true) :
    Formed P g .plain (link subject fragment) ∧ (link subject fragment).isCall = true ∧
      (link subject fragment).startLine? = subject.startLine? := by
  obtain ⟨line, ps, rfl⟩ := Tree.isA_iff.1 hf.2
  cases hf.1 with
  | node content own parts =>
    obtain ⟨name, given, hp, named, arguments, hg⟩ := linkParts_eq line content parts
    obtain ⟨u, hu⟩ := Option.isSome_iff_exists.1
      (hs.1.hasToken (Tree.fits_isA hs.2 ⟨rfl, rfl⟩) (Tree.fits_isA hs.2 ⟨rfl, rfl⟩))
    have hstart : ∀ rest, Tree.firstTokenOf? (subject :: rest) = some u := by
      simp [Tree.firstTokenOf?, hu]
    have hfragment : Formed P g .plain (.of .mutationFragment [.token name, given]) :=
      .of (.link named arguments) (by simp [Formed.token, hg])
    have hmutation : Formed P g .plain (mutationOf subject (.node .mutationFragment line ps)) := by
      unfold mutationOf
      rw [hp]
      exact .of (.mutation hs.2 rfl .none) (by simp [hs.1, hfragment])
    by_cases hpath : link = firstLink ∧ subject.isA .path = true
    · obtain ⟨rfl, hpath⟩ := hpath
      simp only [firstLink, hpath, if_true, hp]
      refine ⟨.of (.serviceCall hpath named arguments .none) (by simp [Formed.token, hs.1, hg]),
        rfl, ?_⟩
      simp [Tree.startLine?, Tree.firstToken?, hstart, hu]
    · have hlink : link subject (.node .mutationFragment line ps) =
          mutationOf subject (.node .mutationFragment line ps) := by
        rcases hl with rfl | rfl
        · simp [firstLink, show subject.isA .path = false by simpa using hpath]
        · rfl
      rw [hlink]
      refine ⟨hmutation, rfl, ?_⟩
      simp [mutationOf, Tree.startLine?, Tree.firstToken?, hstart, hu]

theorem value_hasToken (hf : Formed P g .plain t) (hv : t.fits .plain = true ∨ t.isCall = true) :
    t.firstToken?.isSome = true := by
  have hr : t.fits .read = true := by
    rcases hv with hv | hv
    · exact Tree.fits_read hv
    · cases t <;> simp_all [Tree.fits, Tree.isCall, Tree.rule?]
  exact hf.hasToken (Tree.fits_isA hr ⟨rfl, rfl⟩) (Tree.fits_isA hr ⟨rfl, rfl⟩)

/-- What the pieces of a string are turned into. -/
structure IsPiece (P : Token → Prop) (g : Grammar) (line : Nat) (t : Tree) : Prop where
  formed : Formed P g .plain t
  rule : ∃ rule ps, t = .of rule ps ∧ rule ∈ [Rule.string, .cast, .binaryExpression]
  line : (∀ u : Token, P u → u.Sound) → t.startLine? = some line

theorem IsPiece.fits {line : Nat} (h : IsPiece P g line t) : t.fits .plain = true := by
  obtain ⟨rule, ps, rfl, hr⟩ := h.rule
  simp only [List.mem_cons, List.not_mem_nil, or_false] at hr
  rcases hr with rfl | rfl | rfl <;> rfl

theorem IsPiece.sum {line : Nat} (place : Position) {first : Tree} {rest : List Tree}
    (h : IsPiece P g line first) (hr : ∀ t ∈ rest, IsPiece P g line t) :
    IsPiece P g line (sum place first rest) := by
  induction rest generalizing first with
  | nil => exact h
  | cons next rest ih =>
    simp only [List.forall_mem_cons] at hr
    refine ih ⟨?_, ⟨_, _, rfl, by simp⟩, fun hs => ?_⟩ hr.2
    · exact .of (.binary h.fits (.inr rfl) hr.1.fits) (by simp [Formed.token, h.formed, hr.1.formed])
    · obtain ⟨u, hu⟩ := Option.isSome_iff_exists.1 (value_hasToken h.formed (.inl h.fits))
      simpa [Tree.startLine?, Tree.firstToken?, Tree.firstTokenOf?, hu] using h.line hs

theorem isPiece_cast {v : Tree} {place : Position} {line : Nat} (hv : Formed P g .plain v)
    (hf : v.fits .plain = true)
    (hl : (∀ u : Token, P u → u.Sound) → v.startLine? = some line) :
    IsPiece P g line (castToString v place) := by
  refine ⟨?_, ⟨_, _, rfl, by simp⟩, fun hs => ?_⟩
  · refine .of (.cast hf rfl) ?_
    simp only [List.forall_mem_cons]
    refine ⟨hv, .token _, ?_, by simp⟩
    exact .of (.types (by simp) (by simp)) (by simp [Formed.token])
  · obtain ⟨u, hu, rfl⟩ := Option.map_eq_some_iff.1 (hl hs)
    refine Option.map_eq_some_iff.2 ?_
    exact ⟨u, by simp [castToString, Tree.firstToken?, Tree.firstTokenOf?, hu], rfl⟩

theorem IsCode.startLine {start : Position} {n : Nat} {v : Tree} {used : List Token}
    (h : IsCode g start n v used) : v.startLine? = some start.line := by
  have hb := Tree.fits_isA (r := .block) h.value ⟨rfl, rfl⟩
  have ha := Tree.fits_isA (r := .arguments) h.value ⟨rfl, rfl⟩
  obtain ⟨u, hu⟩ := Option.isSome_iff_exists.1 (h.formed.hasToken hb ha)
  simpa [Tree.startLine?, hu] using h.line u (h.yield u (Tree.mem_yield_of_firstToken? hu))

/-! ## What is taken out -/

/-- A value that was taken out under a line, and the coordinate of its assignment. -/
structure Taken (P : Token → Prop) (g : Grammar) (base : Nat) (v : Coord × Tree) : Prop where
  base : v.1.base = base
  formed : Formed P g .plain v.2
  value : v.2.fits .plain = true ∨ v.2.isCall = true

/-- Assignments of values that were taken out, at issued coordinates in order. -/
def Takes (P : Token → Prop) (g : Grammar) (base : Nat) (cs : List Coord) (before : List Tree) : Prop :=
  ∃ vs : List (Coord × Tree), before = vs.map (fun v => v.1.assignment v.2) ∧
    (vs.map (·.1)).Sublist cs ∧ ∀ v ∈ vs, Taken P g base v

namespace Takes

theorem none : Takes P g base cs [] := ⟨[], rfl, by simp, by simp⟩

theorem append {before' : List Tree} (h : Takes P g base cs before) (h' : Takes P g base ds before') :
    Takes P g base (cs ++ ds) (before ++ before') := by
  obtain ⟨vs, rfl, hs, hv⟩ := h
  obtain ⟨ws, rfl, hs', hw⟩ := h'
  refine ⟨vs ++ ws, by simp, by simpa using hs.append hs', ?_⟩
  exact List.forall_mem_append.2 ⟨hv, hw⟩

theorem one {seq : Nat} {v : Tree} (hf : Formed P g .plain v)
    (hv : v.fits .plain = true ∨ v.isCall = true) :
    Takes P g base [⟨base, seq⟩] [Coord.assignment ⟨base, seq⟩ v] :=
  ⟨[(⟨base, seq⟩, v)], rfl, by simp, by simpa using ⟨rfl, hf, hv⟩⟩

theorem formed (h : Takes P g base cs before) :
    ∀ b ∈ before, Formed P g .plain b ∧ b.isStatement = true := by
  obtain ⟨vs, rfl, -, hv⟩ := h
  intro b hb
  obtain ⟨v, hm, rfl⟩ := List.mem_map.1 hb
  have ht := hv v hm
  refine ⟨.node (.assignment rfl ht.value) (by simp) ?_, rfl⟩
  simp only [List.forall_mem_cons]
  exact ⟨.of (.path rfl (by simp)) (by simp [Formed.token]), .token _, ht.formed, by simp⟩

end Takes

/-! ## Nodes that stay -/

theorem Keeps.parts_eq {ts : List (Role × Tree)} (h : Keeps role rule ps ts) :
    ts.map Prod.snd = ps := by
  cases h with
  | parts | values => simp [Function.comp_def]
  | last =>
    obtain rfl | ⟨front, last, rfl⟩ := List.eq_nil_or_concat ps
    · rfl
    · simp [lastAs_append, Function.comp_def]

/-- The rules of nodes that stay with their parts. -/
theorem Keeps.rule_ne {line : Option Coord} {ts : List (Role × Tree)} (h : Keeps role rule ps ts)
    (ha : role.admits (.node rule line ps)) : rule ≠ .block ∧ rule ≠ .mutation := by
  constructor <;> rintro rfl <;> cases h <;> rename_i ht <;> cases role <;>
    simp_all [treatment, asOperand, asValue, Role.admits, Tree.isStatement, Tree.fits, Tree.rule?,
      Tree.isNode, Rule.isStatement, Rule.isValue, Rule.isCall]

/-- What is left of the parts, whatever their roles. -/
theorem settled_row {ts : List (Role × Tree)} (hr : ∀ p ∈ ts, p.1 = .operand ∨ p.1 = .part)
    (hp : List.Forall₂ (fun p t' => Plain P g p.1 p.2 t') ts ps') :
    List.Forall₂ (Settled .read) (ts.map Prod.snd) ps' := by
  induction hp with
  | nil => exact .nil
  | cons h _ ih =>
    simp only [List.forall_mem_cons] at hr
    exact .cons (h.turns.settled hr.1) (ih hr.2)

theorem plain_node {line : Option Coord} {ts : List (Role × Tree)}
    (hf : Formed P g .read (.node rule line ps)) (hl : leaves role rule = [rule])
    (hb : rule ≠ .block) (hc : Content P g .plain rule ps') (hts : ts.map Prod.snd = ps)
    (hp : List.Forall₂ (fun p t' => Plain P g p.1 p.2 t') ts ps') :
    Plain P g role (.node rule line ps) (.node rule line ps') := by
  cases hf with
  | node content own parts =>
    obtain rfl := own rfl
    refine ⟨.of hc ?_, .node (by simp [hl]), fun hs _ => content.startLine parts hb ?_⟩
    · exact forall₂_each hp (p := fun _ => True) (by simp) fun _ _ h _ => h.formed
    · rw [← hts, List.forall₂_map_left_iff]
      exact hp.imp fun _ _ h => h.line hs

theorem Content.ofExpression (h : Content P g .read .expressionStatement ps)
    (hp : List.Forall₂ (fun t t' => Plain P g .value t t') ps ps') :
    Content P g .plain .expressionStatement ps' := by
  cases h with
  | expressionStatement value =>
    obtain _ | ⟨h, hnil⟩ := hp
    cases hnil
    exact .expressionStatement (h.turns.plain value)

theorem Content.ofAssignment (h : Content P g .read .assignment ps)
    (hp : List.Forall₂ (fun p t' => Plain P g p.1 p.2 t') (lastAs .value ps) ps') :
    Content P g .plain .assignment ps' := by
  cases h with
  | @assignment _ target sign v path value =>
    simp only [lastAs, List.forall₂_cons_left_iff, List.forall₂_nil_left_iff] at hp
    obtain ⟨target', _, h, ⟨_, _, h', ⟨v', _, h'', rfl, rfl⟩, rfl⟩, rfl⟩ := hp
    obtain rfl := (h'.turns.settled (.inr rfl)).token sign rfl
    have hv : v.fits .read = true := by
      rcases value with value | value
      · exact value
      · cases v <;> simp_all [Tree.fits, Tree.isCall, Tree.rule?]
    exact .assignment (h.turns.isA rfl path) (h''.turns.value hv)

theorem plain_keeps {line : Option Coord} {ts : List (Role × Tree)}
    (hf : (Job.tree role (.node rule line ps)).Formed P g) (hk : Keeps role rule ps ts)
    (hp : List.Forall₂ (fun p t' => Plain P g p.1 p.2 t') ts ps') :
    Plain P g role (.node rule line ps) (.node rule line ps') := by
  obtain ⟨hb, hm⟩ := hk.rule_ne hf.2
  refine plain_node hf.1 (leaves_keeps hk) hb ?_ hk.parts_eq hp
  have hps := hk.parts_eq
  cases hf.1 with
  | node content own parts =>
    by_cases hroles : ∀ p ∈ ts, p.1 = .operand ∨ p.1 = .part
    · exact content.settled hb (fun _ => hm) (hps ▸ settled_row hroles hp)
    -- the value of an assignment or of a statement, where a call may stay
    · cases hk with
      | parts => exact absurd (by simp) hroles
      | values ht =>
        obtain rfl := rule_of_values ht
        rw [List.forall₂_map_left_iff] at hp
        exact Content.ofExpression content hp
      | last ht =>
        obtain ⟨-, ⟨rfl, rfl⟩ | ⟨-, rfl⟩⟩ := rule_of_last ht
        · exact Content.ofAssignment content hp
        · refine absurd (fun p hm => ?_) hroles
          obtain rfl | ⟨front, last, rfl⟩ := List.eq_nil_or_concat ps
          · simp [lastAs] at hm
          · simp only [List.concat_eq_append, lastAs_append, List.mem_append, List.mem_map,
              List.mem_singleton] at hm
            rcases hm with ⟨_, -, rfl⟩ | rfl <;> simp

/-! ## Jobs -/

/-- What a job leaves, and what it takes out. -/
def Job.Made (P : Token → Prop) (g : Grammar) (base : Nat) (cs : List Coord) (before left : List Tree) : Job → Prop
  | .tree role t => Takes P g base cs before ∧ ∃ t', left = [t'] ∧ Plain P g role t t'
  | .row ts => Takes P g base cs before ∧ List.Forall₂ (fun p t' => Plain P g p.1 p.2 t') ts left
  | .chain _ subject _ => Takes P g base cs before ∧ ∃ t', left = [t'] ∧ StoryLang.Formed P g .plain t' ∧
      (∃ v f, t' = mutationOf v f ∧ v.fits .plain = true) ∧ t'.startLine? = subject.startLine?
  | .pieces t _ => Takes P g base cs before ∧ ∀ t' ∈ left, IsPiece P g t.line t'
  | .code v => Takes P g base cs before ∧ ∃ v', left = [v'] ∧ StoryLang.Formed P g .plain v' ∧
      v'.fits .plain = true ∧ ((∀ u : Token, P u → u.Sound) → v'.startLine? = v.startLine?)
  | .statements _ => before = [] ∧ ∀ t' ∈ left, StoryLang.Formed P g .plain t' ∧ t'.isStatement = true

/-- The plain parts of a chain. -/
theorem Job.Formed.links {line : Option Coord} {subject subject' : Tree}
    {fragments fragments' : List Tree}
    (h : (Job.tree role (.node .mutation line (subject :: fragments))).Formed P g)
    (hp : List.Forall₂ (fun p t' => Plain P g p.1 p.2 t')
      ((.operand, subject) :: fragments.map (.part, ·)) (subject' :: fragments')) :
    (Job.chain firstLink subject' fragments').Formed P g := by
  cases h.1 with
  | node content own parts =>
    cases content with
    | chain value linked alone each =>
      obtain _ | ⟨hs, hfs⟩ := hp
      rw [List.forall₂_map_left_iff] at hfs
      refine ⟨.inl rfl, ⟨hs.formed, hs.turns.fits (.inl rfl) value⟩, ?_⟩
      refine forall₂_each hfs (List.forall_mem_cons.2 ⟨linked, each⟩) fun _ _ h ht => ?_
      exact ⟨h.formed, h.turns.isA rfl ht⟩

theorem Hoists.made (hg : m.grammar.KeepsLayout) (hP : ∀ u : Token, u.Sound → P u) {job : Job}
    (h : Hoists m base job cs before left) :
    job.Formed P m.grammar → job.Made P m.grammar base cs before left := by
  induction h with
  | token => exact fun hf => ⟨.none, _, rfl, .token _, .token, fun _ _ => rfl⟩
  | none => exact fun _ => ⟨.none, .nil⟩
  | cons first others ih ih' =>
    intro hf
    obtain ⟨ht, t', h, hp⟩ := ih hf.first
    obtain rfl := List.singleton_inj.1 h
    obtain ⟨ht', hp'⟩ := ih' hf.others
    exact ⟨ht.append ht', .cons hp hp'⟩
  | keep keeps parts ih =>
    intro hf
    obtain ⟨ht, hp⟩ := ih (hf.keeps keeps)
    exact ⟨ht, _, rfl, plain_keeps hf keeps hp⟩
  | @guarded base role rule line ps construct cs ps' h parts ih =>
    intro hf
    obtain ⟨ht, hp⟩ := ih hf.parts
    refine ⟨ht, _, rfl, ?_⟩
    have hr : rule ≠ .block ∧ rule ≠ .mutation := by
      rcases rule_of_guarded h with rfl | rfl <;> simp
    refine plain_node hf.1 (by simp [leaves, h]) hr.1 ?_ (by simp [Function.comp_def]) hp
    cases hf.1 with
    | node content own parts =>
      refine content.settled hr.1 (fun _ => hr.2) ?_
      simpa [Function.comp_def] using settled_row (by simp) hp
  | @chain base role line subject fragments cs ds before before' subject' fragments' t h parts
      links ih ih' =>
    intro hf
    obtain ⟨ht, hp⟩ := ih hf.chain
    obtain ⟨ht', t', h', hplain, ⟨v, f, rfl, -⟩, hline⟩ := ih' (hf.links hp)
    obtain rfl := List.singleton_inj.1 h'
    cases hf.1 with
    | node content own parts =>
      obtain rfl := own rfl
      cases content with
      | chain value linked alone each =>
        obtain _ | ⟨hs, -⟩ := hp
        refine ⟨ht.append ht', _, rfl, hplain, .node (by simp [leaves, h]), fun hs' _ => ?_⟩
        have hb := Tree.fits_isA (r := .block) value ⟨rfl, rfl⟩
        have ha := Tree.fits_isA (r := .arguments) value ⟨rfl, rfl⟩
        obtain ⟨u, hu⟩ := Option.isSome_iff_exists.1 ((parts subject (by simp)).hasToken hb ha)
        rw [hline, hs.line hs' hb]
        simp [Tree.startLine?, Tree.firstToken?, Tree.firstTokenOf?, hu]
  | @out base role rule line ps cs seq before value h whole ih =>
    intro hf
    obtain ⟨ht, _, hl, hp⟩ := ih (hf.out h)
    obtain rfl := List.singleton_inj.1 hl
    obtain ⟨hr, hc⟩ := rule_of_out h
    have hv := hp.turns.value (by simp [Tree.fits, Tree.rule?, hc])
    refine ⟨ht.append (.one hp.formed hv), _, rfl, formed_reading, ?_, fun hs hb => ?_⟩
    · exact .node (by rcases h with h | h <;> simp [leaves, h])
    · rw [startLine_reading (value_hasToken hp.formed hv), hp.line hs hb]
  | block h statements ih =>
    intro hf
    obtain ⟨-, hs⟩ := ih (hf.statements h)
    obtain ⟨rfl, rfl⟩ := rule_of_statements h
    refine ⟨.none, _, rfl, .node (.block fun t ht => (hs t ht).2) (by simp) fun t ht => (hs t ht).1,
      ?_, by simp [Tree.isA, Tree.rule?]⟩
    cases hf.1 with
    | node _ own _ =>
      obtain rfl := own rfl
      exact .node (by simp [leaves, h])
  | @lastLink base link subject fragment =>
    rintro ⟨-, hs, hfs⟩
    obtain ⟨hf, -, hline⟩ := formed_link (.inr rfl) hs (hfs fragment (by simp))
    exact ⟨.none, _, rfl, hf, ⟨_, _, rfl, hs.2⟩, hline⟩
  | @link base link subject fragment next fragments seq cs before t others ih =>
    rintro ⟨hl, hs, hfs⟩
    simp only [List.forall_mem_cons] at hfs
    obtain ⟨hf, hc, hline⟩ := formed_link hl hs hfs.1
    obtain ⟨ht, t', h', hp, hr, hl'⟩ :=
      ih ⟨.inr rfl, ⟨formed_reading, fits_reading⟩, List.forall_mem_cons.2 hfs.2⟩
    refine ⟨(Takes.one hf (.inr hc)).append ht, t', h', hp, hr, ?_⟩
    rw [hl', startLine_reading (value_hasToken hf (.inr hc)), hline]
  | @plainString base role line t h text =>
    intro hf
    cases hf.1 with
    | node content own parts =>
      obtain rfl := own rfl
      cases content with
      | string kind sound =>
        exact ⟨.none, _, rfl, .of (.string kind (by simp)) (by simp [Formed.token]),
          .node (by simp [leaves, h]), fun _ _ => rfl⟩
  | @string base role line t cs before first rest h hasCode pieces ih =>
    intro hf
    obtain ⟨ht, hp⟩ := ih hf.pieces
    simp only [List.forall_mem_cons] at hp
    have hsum := hp.1.sum t.position hp.2
    obtain ⟨rule, ps, hrule, hmem⟩ := hsum.rule
    refine ⟨ht, _, rfl, hsum.formed, ?_, fun hs _ => ?_⟩
    · rw [hrule]
      exact .node (by simpa [leaves, h] using hmem)
    · rw [hsum.line hs]
      rfl
  | noPieces => exact fun _ => ⟨.none, by simp⟩
  | text others ih =>
    intro hf
    obtain ⟨ht, hp⟩ := ih hf.otherPieces
    refine ⟨ht, List.forall_mem_cons.2 ⟨⟨?_, ⟨_, _, rfl, by simp⟩, fun _ => rfl⟩, hp⟩⟩
    exact .of (.string rfl (by simp)) (by simp [Formed.token])
  | @piece base t source offset ps v cs ds before before' v' rest read code others ih ih' =>
    intro hf
    obtain ⟨ht, _, hl, hv, hfits, hline⟩ := ih (Job.Formed.code hg hP read)
    obtain rfl := List.singleton_inj.1 hl
    obtain ⟨ht', hp⟩ := ih' hf.otherPieces
    refine ⟨ht.append ht', List.forall_mem_cons.2 ⟨isPiece_cast hv hfits fun hs => ?_, hp⟩⟩
    obtain ⟨used, hu⟩ := hf.isCode hg (hs t hf.2.1) read
    rw [hline hs, hu.startLine]
  | codePath path whole ih =>
    intro hf
    obtain ⟨ht, v', hl, hp⟩ := ih hf.whole
    refine ⟨ht, v', hl, hp.formed, ?_, fun hs => hp.line hs (Tree.fits_isA hf.2 ⟨rfl, rfl⟩)⟩
    exact Tree.fits_of_isA (hp.turns.isA rfl path) rfl
  | @codeOut base v cs seq before value noPath whole ih =>
    intro hf
    obtain ⟨ht, _, hl, hp⟩ := ih hf.whole
    obtain rfl := List.singleton_inj.1 hl
    have hv := hp.turns.value hf.2
    refine ⟨ht.append (.one hp.formed hv), _, rfl, formed_reading, fits_reading, fun hs => ?_⟩
    rw [startLine_reading (value_hasToken hp.formed hv), hp.line hs (Tree.fits_isA hf.2 ⟨rfl, rfl⟩)]
  | noStatements => exact fun _ => ⟨rfl, by simp⟩
  | @statements base t ts cs ds before t' ts' first others ih ih' =>
    intro hf
    obtain ⟨ht, _, hl, hp⟩ := ih hf.statement
    obtain rfl := List.singleton_inj.1 hl
    obtain ⟨-, hs⟩ := ih' hf.otherStatements
    refine ⟨rfl, List.forall_mem_append.2 ⟨ht.formed, List.forall_mem_cons.2 ⟨⟨hp.formed, ?_⟩, hs⟩⟩⟩
    exact hp.turns.statement hf.statement.2

end Hoist

end StoryLang
