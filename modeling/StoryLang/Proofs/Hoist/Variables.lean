/-
How often the variables of what was taken out occur.

A name that no story can have occurs in plain trees for the coordinates that
were issued and for nothing else: once where its variable is assigned and once
where it is read. This is counted along the relation, for one name at a time.
-/
import StoryLang.Proofs.Hoist.Plain
import StoryLang.Proofs.Tree.Names

namespace StoryLang

namespace Hoist

open StoryLang.Tree (occurs occursAll assigned assignedAll assigns)

variable {g : Grammar} {m : ScanMode} {base : Nat} {cs ds : List Coord}
  {before before' left ts ts' us us' : List Tree} {n : String} {role : Role} {rule : Rule}
  {line : Option Coord} {ps ps' : List Tree}

/-! ## Counting -/

/-- How often a name is the one of a coordinate. -/
def issuedAs (n : String) (cs : List Coord) : Nat := cs.countP (·.variable = n)

@[simp] theorem issuedAs_nil : issuedAs n [] = 0 := rfl

@[simp] theorem issuedAs_append : issuedAs n (cs ++ ds) = issuedAs n cs + issuedAs n ds :=
  List.countP_append

theorem issuedAs_one (c : Coord) : issuedAs n [c] = if c.variable = n then 1 else 0 := by
  simp [issuedAs, List.countP_cons]

/-- Compared to some trees, in others a name occurs twice more for each of its
coordinates, once of it assigned. -/
structure Tally (n : String) (cs : List Coord) (ts us : List Tree) : Prop where
  occurs : occursAll n us = occursAll n ts + 2 * issuedAs n cs
  assigned : assignedAll n us = assignedAll n ts + issuedAs n cs

namespace Tally

theorem refl : Tally n [] ts ts := ⟨rfl, rfl⟩

theorem append (h : Tally n cs ts us) (h' : Tally n ds ts' us') :
    Tally n (cs ++ ds) (ts ++ ts') (us ++ us') := by
  constructor
  · rw [Tree.occursAll_append, Tree.occursAll_append, issuedAs_append, h.occurs, h'.occurs]
    omega
  · rw [Tree.assignedAll_append, Tree.assignedAll_append, issuedAs_append, h.assigned, h'.assigned]
    omega

theorem trans (h : Tally n cs ts us) (h' : Tally n ds us us') : Tally n (cs ++ ds) ts us' := by
  constructor
  · rw [issuedAs_append, h'.occurs, h.occurs]
    omega
  · rw [issuedAs_append, h'.assigned, h.assigned]
    omega

/-- The order of the trees does not count. -/
theorem perm (h : Tally n cs ts us) (ho : occursAll n us' = occursAll n us)
    (ha : assignedAll n us' = assignedAll n us) : Tally n cs ts us' :=
  ⟨ho.trans h.occurs, ha.trans h.assigned⟩

end Tally

theorem occurs_reading (c : Coord) (v : Tree) :
    (reading c v).occurs n = if c.variable = n then 1 else 0 := by
  simp [reading, Coord.path, Token.isName]

theorem assigned_reading (c : Coord) (v : Tree) : (reading c v).assigned n = 0 := by
  simp [reading, Coord.path, Tree.assigned_other]

theorem occurs_assignment (c : Coord) (v : Tree) :
    (c.assignment v).occurs n = v.occurs n + if c.variable = n then 1 else 0 := by
  simp [Coord.assignment, Coord.path, Token.isName, Nat.add_comm]

theorem assigned_assignment (c : Coord) (v : Tree) :
    (c.assignment v).assigned n = v.assigned n + if c.variable = n then 1 else 0 := by
  simp [Coord.assignment, Coord.path, Tree.assigned_node, assigns, Token.isName]

/-- Taking a tree out adds its assignment and the path that reads it. -/
theorem tally_out (c : Coord) (v : Tree) :
    Tally n [c] [v] [c.assignment v, reading c v] := by
  constructor
  · simp only [Tree.occursAll_cons, Tree.occursAll_nil, occurs_assignment, occurs_reading,
      issuedAs_one]
    omega
  · simp only [Tree.assignedAll_cons, Tree.assignedAll_nil, assigned_assignment, assigned_reading,
      issuedAs_one]
    omega

/-! ## Chains -/

/-- A `then` is no name. -/
theorem tally_linkParts {fragment : Tree} (h : fragment.isA .mutationFragment = true) :
    Tally n [] [fragment] (linkParts fragment) := by
  have hfilter : ∀ ps : List Tree, Tally n [] ps (ps.filter fun part =>
      !part.asToken?.any (·.kind = .keyword .thenWord)) := by
    intro ps
    induction ps with
    | nil => exact .refl
    | cons p ps ih =>
      rw [List.filter_cons]
      split
      · exact (.refl : Tally n [] [p] [p]).append ih
      · rename_i hp
        cases p with
        | token u =>
          have hk : u.kind = .keyword .thenWord := by simpa [Tree.asToken?] using hp
          exact ⟨by simp [ih.occurs, Token.isName, hk], by simp [ih.assigned]⟩
        | node => simp [Tree.asToken?] at hp
  obtain ⟨line, ps, rfl⟩ := Tree.isA_iff.1 h
  have hp := hfilter ps
  exact ⟨by simpa [linkParts, Tree.parts] using hp.occurs,
    by simpa [linkParts, Tree.parts, Tree.assigned_other] using hp.assigned⟩

theorem tally_link {link : Tree → Tree → Tree} {subject fragment : Tree}
    (hl : link = firstLink ∨ link = mutationOf) (h : fragment.isA .mutationFragment = true) :
    Tally n [] [subject, fragment] [link subject fragment] := by
  have hp := (.refl : Tally n [] [subject] [subject]).append (tally_linkParts h)
  have hm : Tally n [] [subject, fragment] [mutationOf subject fragment] :=
    hp.perm (by simp [mutationOf]) (by simp [mutationOf, Tree.assigned_other])
  rcases hl with rfl | rfl
  · unfold firstLink
    split
    · exact hp.perm (by simp) (by simp [Tree.assigned_other])
    · exact hm
  · exact hm

theorem tally_chain {link : Tree → Tree → Tree} {subject : Tree} {fragments : List Tree}
    (hl : link = firstLink ∨ link = mutationOf)
    (hf : ∀ f ∈ fragments, f.isA .mutationFragment = true)
    (h : Hoists m base (.chain link subject fragments) cs before left) :
    Tally n cs (subject :: fragments) (before ++ left) := by
  induction fragments generalizing link subject cs before with
  | nil => cases h
  | cons fragment fragments ih =>
    simp only [List.forall_mem_cons] at hf
    cases h with
    | lastLink => exact tally_link (.inr rfl) hf.1
    | @link _ _ _ _ next fragments seq cs before t others =>
      have hrest := ih (.inr rfl) hf.2 others
      have hlink : Tally n [] [subject, fragment] [link subject fragment] := tally_link hl hf.1
      have hout := hlink.trans (tally_out ⟨base, seq⟩ (link subject fragment))
      have hfirst := hout.append (.refl : Tally n [] (next :: fragments) (next :: fragments))
      rw [List.append_nil] at hfirst
      exact hfirst.trans ((.refl : Tally n [] [_] [_]).append hrest)

/-! ## Counting along the relation -/

/-- The root of a path stays. -/
theorem Hoists.root {root : Token} {fs : List Tree} {t' : Tree}
    (h : Hoists m base (.tree .part (.node .path line (.token root :: fs))) cs before [t']) :
    ∃ fs', t' = .node .path line (.token root :: fs') := by
  cases h with
  | keep keeps row =>
    cases keeps with
    | parts =>
      cases row with
      | cons first _ =>
        cases first with
        | token => exact ⟨_, rfl⟩
    | last ht | values ht => cases ht
  | guarded ht | block ht => cases ht
  | out ht => rcases ht with ht | ht <;> cases ht

/-- No assignment to a variable is made of another one. -/
theorem keep_assigns {ts : List (Role × Tree)} (hf : (Job.tree role (.node rule line ps)).Formed Token.Sound g)
    (hk : Keeps role rule ps ts) (h : Hoists m base (.row ts) cs before ps')
    (hq : occursAll n ps = 0) : assigns n (.node rule line ps') = false := by
  by_contra ha
  have hr : rule = .assignment := by
    by_contra hr
    unfold assigns at ha
    split at ha
    · rename_i heq
      exact hr (Tree.node.inj heq).1
    · exact ha rfl
  subst hr
  cases hf.1 with
  | node content own parts =>
    cases content with
    | @assignment _ target sign v path value =>
      obtain ⟨tline, tps, rfl⟩ := Tree.isA_iff.1 path
      obtain ⟨root, fs, rfl⟩ : ∃ root fs, tps = .token root :: fs := by
        cases parts _ (List.mem_cons_self) with
        | node content =>
          cases content with
          | path => exact ⟨_, _, rfl⟩
      obtain ⟨rest, rfl⟩ : ∃ rest, ts = (.part, .node .path tline (.token root :: fs)) :: rest := by
        cases hk with
        | parts | last => exact ⟨_, rfl⟩
        | values ht => cases rule_of_values ht
      cases h with
      | cons first _ =>
        obtain ⟨fs', rfl⟩ := first.root
        have hroot : root.isName n = true := by
          unfold assigns at ha
          split at ha
          · rename_i heq
            obtain ⟨-, -, hps⟩ := Tree.node.inj heq
            obtain ⟨-, -, hps⟩ := Tree.node.inj (List.cons.inj hps).1
            have hu := Tree.token.inj (List.cons.inj hps).1
            simpa [hu] using ha
          · exact absurd rfl ha
        simp [hroot] at hq

/-- No node of another rule than an assignment makes one. -/
theorem tally_node {rule' : Rule} {line' : Option Coord}
    (h : Tally n cs ps (before ++ ps')) (ha : assigns n (.node rule line ps) = false)
    (ha' : assigns n (.node rule' line' ps') = false) :
    Tally n cs [.node rule line ps] (before ++ [.node rule' line' ps']) := by
  constructor
  · simpa using h.occurs
  · simpa [Tree.assigned_node, ha, ha'] using h.assigned

theorem tally_sum (place : Position) (first : Tree) (rest : List Tree) :
    Tally n [] (first :: rest) [sum place first rest] := by
  induction rest generalizing first with
  | nil => exact .refl
  | cons next rest ih =>
    have h := ih (.of .binaryExpression [first, .token ⟨.symbol .plus, "+", place⟩, next])
    rw [sum]
    constructor
    · rw [h.occurs]
      simp [Token.isName, Nat.add_assoc]
    · rw [h.assigned]
      simp [Tree.assigned_other, Nat.add_assoc]

theorem tally_cast (hn : isIssuedName n = true) (v : Tree) (place : Position) :
    Tally n [] [v] [castToString v place] := by
  have hs : "string" ≠ n := by
    rintro rfl
    revert hn
    decide
  constructor <;> simp [castToString, Token.isName, Tree.assigned_other, hs]

/-- The name does not occur yet, except in a chain, whose parts are plain already. -/
def Job.Quiet (n : String) : Job → Prop
  | .chain _ _ _ => True
  | job => occursAll n job.input = 0

theorem Hoists.tally (hg : m.grammar.KeepsLayout) (hn : isIssuedName n = true) {job : Job}
    (h : Hoists m base job cs before left) :
    job.Formed Token.Sound m.grammar → job.Quiet n → Tally n cs job.input (before ++ left) := by
  induction h with
  | token | none | noPieces | noStatements | plainString => exact fun _ _ => .refl
  | @cons base role t ts cs ds before before' t' ts' first others ih ih' =>
    intro hf hq
    have hq : t.occurs n = 0 ∧ occursAll n (ts.map Prod.snd) = 0 := by
      simpa [Job.Quiet, Job.input] using hq
    have ht := ih hf.first (by simpa [Job.Quiet, Job.input] using hq.1)
    have hts := ih' hf.others hq.2
    refine (ht.append hts).perm ?_ ?_
    · simp only [Tree.occursAll_append, Tree.occursAll_cons, Tree.occursAll_nil]
      omega
    · simp only [Tree.assignedAll_append, Tree.assignedAll_cons, Tree.assignedAll_nil]
      omega
  | @keep base role rule line ps ts cs before ps' keeps parts ih =>
    intro hf hq
    have hq : occursAll n ps = 0 := by simpa [Job.Quiet, Job.input] using hq
    have hp := ih (hf.keeps keeps) (by simpa [Job.Quiet, Job.input, keeps.parts_eq] using hq)
    rw [Job.input, keeps.parts_eq] at hp
    refine tally_node hp ?_ (keep_assigns hf keeps parts hq)
    by_contra ha
    have := Tree.occursAll_pos_of_assigns (Bool.not_eq_false _ ▸ ha)
    omega
  | @guarded base role rule line ps construct cs ps' ht parts ih =>
    intro hf hq
    have hp := ih hf.parts (by simpa [Job.Quiet, Job.input, Function.comp_def] using hq)
    have hr : rule ≠ .assignment := by rcases rule_of_guarded ht with rfl | rfl <;> simp
    simp only [Job.input, List.map_map, Function.comp_def, List.map_id'] at hp
    exact tally_node hp (Tree.assigns_other hr) (Tree.assigns_other hr)
  | @chain base role line subject fragments cs ds before before' subject' fragments' t ht parts
      links ih =>
    intro hf hq
    obtain ⟨-, hp⟩ := parts.made hg (fun _ => id) hf.chain
    have hrow := ih hf.chain (by simpa [Job.Quiet, Job.input, Function.comp_def] using hq)
    simp only [Job.input, List.map_cons, List.map_map, Function.comp_def, List.map_id'] at hrow
    have hlinks := tally_chain (n := n) (.inl rfl) (fun f hf' => ((hf.links hp).2.2 f hf').2) links
    have h := hrow.trans ((.refl : Tally n [] before before).append hlinks)
    constructor
    · simpa [Job.input] using h.occurs
    · simpa [Job.input, Tree.assigned_other] using h.assigned
  | @out base role rule line ps cs seq before value ht whole ih =>
    intro hf hq
    have h := (ih (hf.out ht) hq).trans
      ((.refl : Tally n [] before before).append (tally_out ⟨base, seq⟩ value))
    simpa [Job.input] using h
  | @block base role rule line ps cs ps' ht statements ih =>
    intro hf hq
    have hr : rule ≠ .assignment := by
      obtain ⟨-, rfl⟩ := rule_of_statements ht
      simp
    have h := ih (hf.statements ht) (by simpa [Job.Quiet, Job.input] using hq)
    exact tally_node h (Tree.assigns_other hr) (Tree.assigns_other hr)
  | lastLink => exact fun hf _ => tally_link (.inr rfl) (hf.2.2 _ (List.mem_cons_self)).2
  | link others =>
    exact fun hf _ => tally_chain hf.1 (fun f hf' => (hf.2.2 f hf').2) (.link others)
  | @string base role line t cs before first rest ht hasCode pieces ih =>
    intro hf hq
    have h := (ih hf.pieces rfl).trans
      ((.refl : Tally n [] before before).append (tally_sum t.position first rest))
    constructor
    · simpa [Job.input, show Token.isName n t = false by simpa [Job.Quiet, Job.input] using hq]
        using h.occurs
    · simpa [Job.input, Tree.assigned_other] using h.assigned
  | @text base t raw ps cs before rest others ih =>
    intro hf hq
    have h := ih hf.otherPieces rfl
    constructor
    · simpa [Job.input, Token.isName] using h.occurs
    · simpa [Job.input, Tree.assigned_other] using h.assigned
  | @piece base t source offset ps v cs ds before before' v' rest read code others ih ih' =>
    intro hf hq
    obtain ⟨used, hcode⟩ := hf.isCode hg hf.2.1 read
    have hsound : ∀ u ∈ Tree.yieldAll [v], u.Sound := by
      intro u hu
      exact hcode.sound u (hcode.yield u (by simpa [Tree.yieldAll] using hu))
    have hq := Tree.occursAll_sound hsound hn
    have ha := Nat.le_zero.1 (hq ▸ Tree.assignedAll_le_occursAll [v])
    have hv := ih (Job.Formed.code hg (fun _ => id) read) hq
    have hcast := hv.trans ((.refl : Tally n [] before before).append
      (tally_cast hn v' ⟨t.line, t.column + 1 + offset⟩))
    have h := hcast.append (ih' hf.otherPieces rfl)
    constructor
    · have ho := h.occurs
      simp only [Job.input, Tree.occursAll_append, Tree.occursAll_cons, Tree.occursAll_nil,
        issuedAs_append, issuedAs_nil] at ho hq ⊢
      omega
    · have ho := h.assigned
      simp only [Job.input, Tree.assignedAll_append, Tree.assignedAll_cons, Tree.assignedAll_nil,
        issuedAs_append, issuedAs_nil] at ho ha ⊢
      omega
  | codePath path whole ih => exact fun hf hq => ih hf.whole hq
  | @codeOut base v cs seq before value noPath whole ih =>
    intro hf hq
    have h := (ih hf.whole hq).trans
      ((.refl : Tally n [] before before).append (tally_out ⟨base, seq⟩ value))
    simpa [Job.input] using h
  | @statements base t ts cs ds before t' ts' first others ih ih' =>
    intro hf hq
    have hq : t.occurs n = 0 ∧ occursAll n ts = 0 := by simpa [Job.Quiet, Job.input] using hq
    have ht := ih hf.statement (by simpa [Job.Quiet, Job.input] using hq.1)
    have h := ht.append (ih' hf.otherStatements hq.2)
    simpa [Job.input] using h

end Hoist

end StoryLang
