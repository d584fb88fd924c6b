/-
Putting back what was taken out.

`Tree.restored` drops the assignments of a plain story that have a coordinate
of their own and puts each value back in place of the path that reads its
variable. If only single calls were taken out, and no chain and no string came
apart, this gives the story that was read.
-/
import StoryLang.Proofs.Hoist.Variables

namespace StoryLang

namespace Tree

/-- Values of variables by their names. -/
abbrev Values : Type := String → Option Tree

/-- Sets the value of a variable. -/
def Values.set (vs : Values) (name : String) (v : Tree) : Values :=
  fun n => if n = name then some v else vs n

mutual

/-- Puts values in place of the paths that read their variables. -/
def putBack (vs : Values) : Tree → Tree
  | token u => token u
  | node .path l [token u] => (vs u.literal).getD (node .path l [token u])
  | node .block l ts => node .block l (putBackList vs ts)
  | node r l ps => node r l (putBackEach vs ps)

/-- The same for each tree of a row. -/
def putBackEach (vs : Values) : List Tree → List Tree
  | [] => []
  | t :: ts => putBack vs t :: putBackEach vs ts

/-- The same for a list of statements. An assignment with a coordinate of its
own is dropped, and its value put back further on. -/
def putBackList (vs : Values) : List Tree → List Tree
  | [] => []
  | node .assignment (some c) [_, _, v] :: ts =>
    putBackList (vs.set c.variable (putBack vs v)) ts
  | t :: ts => putBack vs t :: putBackList vs ts

end

/-- The story with everything put back that was taken out. -/
def restored : Tree → Tree
  | token u => token u
  | node r l ts => node r l (putBackList (fun _ => none) ts)

/-- Nothing that this tree is made of comes apart: it is neither a chain of
several links nor a string with code. -/
structure SimpleNode (t : Tree) : Prop where
  oneLink : t.isA .mutation = true → t.parts.countP (·.isA .mutationFragment) ≤ 1
  noCode : t.isA .string = true → ∀ u, token u ∈ t.parts → Pieces.hasCode u.literal.toList = false

instance (t : Tree) : Decidable t.SimpleNode :=
  decidable_of_iff ((t.isA .mutation = true → t.parts.countP (·.isA .mutationFragment) ≤ 1) ∧
      (t.isA .string = true → ∀ p ∈ t.parts, ∀ u ∈ p.asToken?,
        Pieces.hasCode u.literal.toList = false))
    ⟨fun h => ⟨h.1, fun hs u hu => h.2 hs _ hu u rfl⟩, fun h => ⟨h.oneLink, fun hs p hp u hu => by
      cases p <;> simp_all [asToken?, h.noCode hs]⟩⟩

/-- The same of every node. -/
def Simple (t : Tree) : Prop := ∀ n ∈ t.walk, n.SimpleNode

instance (t : Tree) : Decidable t.Simple := inferInstanceAs (Decidable (∀ n ∈ t.walk, n.SimpleNode))

variable {vs : Values} {r : Rule} {l : Option Coord} {ps ts : List Tree} {t v : Tree}

theorem putBackEach_eq : putBackEach vs ps = ps.map (putBack vs) := by
  induction ps with
  | nil => rfl
  | cons p ps ih => rw [putBackEach, ih, List.map_cons]

theorem putBack_node (hb : r ≠ .block) (hp : ∀ u, r = .path → ps ≠ [token u]) :
    (node r l ps).putBack vs = node r l (ps.map (putBack vs)) := by
  rw [putBack, putBackEach_eq] <;> simp_all

theorem putBack_reading (c : Coord) (place : Position) :
    (c.path place).putBack vs = (vs c.variable).getD (c.path place) := by
  rw [Coord.path, of, putBack]

theorem putBackList_taken (c : Coord) : putBackList vs (c.assignment v :: ts) =
    putBackList (vs.set c.variable (v.putBack vs)) ts := by
  rw [Coord.assignment, putBackList]

theorem putBackList_own (h : t.ownLine? = none) :
    putBackList vs (t :: ts) = t.putBack vs :: putBackList vs ts := by
  rw [putBackList]
  rintro c _ _ v rfl
  cases h

theorem simple_node : (node r l ps).Simple ↔ (node r l ps).SimpleNode ∧ ∀ p ∈ ps, p.Simple :=
  forall_mem_walk

end Tree

namespace Hoist

open StoryLang.Tree (Values putBack putBackList)

variable {g : Grammar} {m : ScanMode} {P : Token → Prop} {base : Nat} {cs ds : List Coord}
  {before before' left : List Tree} {vs vs' vs'' : Values} {role : Role} {rule : Rule}
  {line : Option Coord} {ps ps' : List Tree} {t v : Tree} {c : Coord}

/-- The names of the variables of some coordinates. -/
def varNames (cs : List Coord) : List String := cs.map Coord.variable

/-- Only variables of what was taken out have values. -/
def OnlyIssued (vs : Values) : Prop := ∀ n, isIssuedName n = false → vs n = none

/-- Assignments in front of a list set the values from `vs` to `vs'`. -/
structure Sets (cs : List Coord) (vs : Values) (before : List Tree) (vs' : Values) : Prop where
  drops : ∀ ts, putBackList vs (before ++ ts) = putBackList vs' ts
  others : ∀ n, n ∉ varNames cs → vs' n = vs n

/-- With the values that were set for it, and whatever others, a row is put back. -/
def Restores (cs : List Coord) (vs' : Values) (left input : List Tree) : Prop :=
  ∀ vs'', OnlyIssued vs'' → (∀ n ∈ varNames cs, vs'' n = vs' n) →
    left.map (putBack vs'') = input

namespace Sets

theorem refl (cs : List Coord) (vs : Values) : Sets cs vs [] vs := ⟨fun _ => rfl, fun _ _ => rfl⟩

theorem append (h : Sets cs vs before vs') (h' : Sets ds vs' before' vs'') :
    Sets (cs ++ ds) vs (before ++ before') vs'' := by
  refine ⟨fun ts => ?_, fun n hn => ?_⟩
  · rw [List.append_assoc, h.drops, h'.drops]
  · simp only [varNames, List.map_append, List.mem_append, not_or] at hn
    rw [h'.others n hn.2, h.others n hn.1]

theorem one (c : Coord) (vs : Values) (v : Tree) :
    Sets [c] vs [c.assignment v] (vs.set c.variable (v.putBack vs)) := by
  refine ⟨fun ts => Tree.putBackList_taken c, fun n hn => ?_⟩
  simp only [varNames, List.map_cons, List.map_nil, List.mem_singleton] at hn
  exact if_neg hn

theorem onlyIssued (h : Sets cs vs before vs') (hv : OnlyIssued vs) : OnlyIssued vs' := by
  intro n hn
  rw [h.others n ?_, hv n hn]
  intro hm
  obtain ⟨c, -, rfl⟩ := List.mem_map.1 hm
  rw [Coord.isIssuedName_variable c] at hn
  cases hn

end Sets

theorem Restores.cons {left' input input' : List Tree} {vs₂ : Values}
    (h : Restores cs vs' left input) (h' : Restores ds vs₂ left' input')
    (hsets : Sets ds vs' before' vs₂) (hd : (varNames (cs ++ ds)).Nodup) :
    Restores (cs ++ ds) vs₂ (left ++ left') (input ++ input') := by
  intro vs'' hv hagree
  simp only [varNames, List.map_append] at hd hagree
  rw [List.map_append, h vs'' hv fun n hn => ?_, h' vs'' hv fun n hn => hagree n (by simp_all [varNames])]
  rw [hagree n (List.mem_append_left _ hn), hsets.others n]
  exact fun hn' => (List.nodup_append.1 hd).2.2 n hn n hn' rfl

def Job.Restores (cs : List Coord) (before left : List Tree) : Job → Prop
  | .tree _ t => ∀ vs, OnlyIssued vs →
      ∃ vs', Sets cs vs before vs' ∧ Hoist.Restores cs vs' left [t]
  | .row ts => ∀ vs, OnlyIssued vs →
      ∃ vs', Sets cs vs before vs' ∧ Hoist.Restores cs vs' left (ts.map Prod.snd)
  | .statements ts => ∀ vs, OnlyIssued vs → putBackList vs left = ts
  | .chain _ _ _ | .pieces _ _ | .code _ => True

/-- No name of the job is issued, and nothing of it comes apart. -/
structure Job.Whole (job : Job) : Prop where
  quiet : ∀ n, isIssuedName n = true → Tree.occursAll n job.input = 0
  simple : ∀ t ∈ job.input, t.Simple

namespace Job.Whole

/-- The parts of a node. -/
theorem parts {job : Job} (h : (Job.tree role (.node rule line ps)).Whole) (hi : job.input = ps) :
    job.Whole := by
  refine ⟨fun n hn => ?_, fun t ht => ?_⟩
  · rw [hi]
    simpa [Job.input] using h.quiet n hn
  · exact (Tree.simple_node.1 (h.simple (.node rule line ps) (by simp [Job.input]))).2 t (hi ▸ ht)

theorem simpleNode (h : (Job.tree role (.node rule line ps)).Whole) :
    (Tree.node rule line ps).SimpleNode :=
  (Tree.simple_node.1 (h.simple _ (by simp [Job.input]))).1

/-- One tree of those of a job. -/
theorem one {job job' : Job} {rest : List Tree} (h : job.Whole) (hi : job.input = t :: rest)
    (hi' : job'.input = [t]) : job'.Whole := by
  refine ⟨fun n hn => ?_, ?_⟩
  · have := h.quiet n hn
    rw [hi, Tree.occursAll_cons] at this
    rw [hi', Tree.occursAll_cons, Tree.occursAll_nil]
    omega
  · rw [hi']
    exact List.forall_mem_singleton.2 (h.simple t (by simp [hi]))

/-- All others. -/
theorem others {job job' : Job} {rest : List Tree} (h : job.Whole) (hi : job.input = t :: rest)
    (hi' : job'.input = rest) : job'.Whole := by
  refine ⟨fun n hn => ?_, fun u hu => h.simple u (by simp_all)⟩
  have := h.quiet n hn
  rw [hi, Tree.occursAll_cons] at this
  rw [hi']
  omega

end Job.Whole

/-- A node whose parts are put back, and which is no block. -/
theorem restores_node (hb : rule ≠ .block) (hq : ∀ n, isIssuedName n = true → Tree.occursAll n ps = 0)
    (hf : Formed P g .read (.node rule line ps))
    (h : Hoist.Restores cs vs' ps' ps) : Hoist.Restores cs vs' [.node rule line ps'] [.node rule line ps] := by
  intro vs'' hv hagree
  have hps := h vs'' hv hagree
  by_cases hp : ∃ u, rule = .path ∧ ps' = [.token u]
  · obtain ⟨u, rfl, rfl⟩ := hp
    obtain rfl : ps = [.token u] := by simpa [putBack] using hps.symm
    have hkind : u.kind = .name := by
      cases hf with
      | node content _ _ =>
        cases content with
        | path kind => exact kind
    have hn : isIssuedName u.literal = false := by
      by_contra hn
      have := hq u.literal (by simpa using hn)
      simp [Token.isName, hkind] at this
    simp [putBack, hv _ hn]
  · simp only [not_exists, not_and] at hp
    rw [List.map_singleton, Tree.putBack_node hb hp, hps]

/-- A single link is put back with its parts. -/
theorem restores_mutation {subject subject' fragment fragment' : Tree}
    (hf : Formed P g .read (.node .mutation line [subject, fragment]))
    (hl : fragment'.isA .mutationFragment = true)
    (h : Hoist.Restores cs vs' [subject', fragment'] [subject, fragment]) :
    Hoist.Restores cs vs' [mutationOf subject' fragment'] [.node .mutation line [subject, fragment]] := by
  intro vs'' hv hagree
  obtain ⟨fline, ps', rfl⟩ := Tree.isA_iff.1 hl
  have h := h vs'' hv hagree
  simp only [List.map_cons, List.map_nil, List.cons.injEq, and_true] at h
  obtain ⟨rfl, rfl⟩ := h
  cases hf with
  | node content own parts =>
    obtain rfl := own rfl
    cases content with
    | chain value linked alone each =>
      rw [Tree.putBack_node (by simp) (by simp)] at alone parts ⊢
      obtain rfl : fline = none := by
        cases parts (.node .mutationFragment fline (ps'.map (putBack vs''))) (by simp) with
        | node _ own _ => exact own rfl
      have hlink : linkParts (.node .mutationFragment none ps') = ps' := by
        refine List.filter_eq_self.2 fun p hp => ?_
        cases p with
        | node => rfl
        | token u =>
          have hu : u ∈ (Tree.node .mutationFragment none (ps'.map (putBack vs''))).tokens :=
            List.mem_filterMap.2 ⟨.token u, List.mem_map.2 ⟨.token u, hp, by rw [putBack]⟩, rfl⟩
          simpa [Tree.asToken?] using List.find?_eq_none.1 alone u hu
      rw [mutationOf, hlink, List.map_singleton, Tree.putBack_node (by simp) (by simp)]
      simp [Tree.putBack_node]

theorem Hoists.restores (hg : m.grammar.KeepsLayout) (hP : ∀ u : Token, u.Sound → P u) {job : Job}
    (h : Hoists m base job cs before left) : job.Formed P m.grammar → job.Whole →
      (varNames cs).Nodup → job.Restores cs before left := by
  induction h with
  | token => exact fun _ _ _ vs _ => ⟨vs, .refl _ _, fun _ _ _ => by simp [putBack]⟩
  | none => exact fun _ _ _ vs _ => ⟨vs, .refl _ _, fun _ _ _ => rfl⟩
  | @cons base role t ts cs ds before before' t' ts' first others ih ih' =>
    intro hf hw hd vs hv
    have hd' := hd
    rw [varNames, List.map_append, List.nodup_append] at hd'
    obtain ⟨vs', hset, ht⟩ := ih hf.first (hw.one rfl rfl) hd'.1 vs hv
    obtain ⟨vs₂, hset', hts⟩ := ih' hf.others (hw.others rfl rfl) hd'.2.1 vs'
      (hset.onlyIssued hv)
    exact ⟨vs₂, hset.append hset', ht.cons hts hset' hd⟩
  | @keep base role rule line ps ts cs before ps' keeps parts ih =>
    intro hf hw hd vs hv
    have hparts : (Job.row ts).Whole := hw.parts keeps.parts_eq
    obtain ⟨vs', hset, h⟩ := ih (hf.keeps keeps) hparts hd vs hv
    rw [keeps.parts_eq] at h
    refine ⟨vs', hset, restores_node (keeps.rule_ne hf.2).1 ?_ hf.1 h⟩
    simpa [Job.input, keeps.parts_eq] using hparts.quiet
  | @guarded base role rule line ps construct cs ps' ht parts ih =>
    intro hf hw hd vs hv
    have hi : (ps.map (Role.part, ·)).map Prod.snd = ps := by simp [Function.comp_def]
    have hparts : (Job.row (ps.map (.part, ·))).Whole := hw.parts hi
    obtain ⟨vs', hset, h⟩ := ih hf.parts hparts hd vs hv
    rw [hi] at h
    refine ⟨vs', hset, restores_node ?_ ?_ hf.1 h⟩
    · rcases rule_of_guarded ht with rfl | rfl <;> simp
    · simpa [Job.input, hi] using hparts.quiet
  | @chain base role line subject fragments cs ds before before' subject' fragments' t ht parts
      links ih =>
    intro hf hw hd vs hv
    have hi : ((Role.operand, subject) :: fragments.map (Role.part, ·)).map Prod.snd =
        subject :: fragments := by simp [Function.comp_def]
    obtain ⟨-, hp⟩ := parts.made hg hP hf.chain
    obtain ⟨-, -, hfs⟩ := hf.links hp
    -- only one link, so nothing else is taken out
    obtain ⟨first, rfl⟩ : ∃ first, fragments = [first] := by
      cases hf.1 with
      | node content _ _ =>
        cases content with
        | @chain _ first rest value linked alone each =>
          have hone := hw.simpleNode.oneLink rfl
          cases rest with
          | nil => exact ⟨first, rfl⟩
          | cons next rest =>
            simp only [Tree.parts, List.countP_cons, linked, each next (by simp), if_true] at hone
            omega
    obtain ⟨first', rfl⟩ : ∃ first', fragments' = [first'] := by
      simpa [List.length_eq_one_iff] using parts.length_row
    cases links with
    | lastLink =>
      rw [List.append_nil] at hd ⊢
      obtain ⟨vs', hset, h⟩ := ih hf.chain (hw.parts hi) hd vs hv
      rw [hi] at h
      exact ⟨vs', by simpa using hset, restores_mutation hf.1 (hfs _ (by simp)).2 h⟩
  | @out base role rule line ps cs seq before value ht whole ih =>
    intro hf hw hd vs hv
    rw [varNames, List.map_append, List.nodup_append] at hd
    obtain ⟨vs', hset, h⟩ := ih (hf.out ht) ⟨hw.quiet, hw.simple⟩ hd.1 vs hv
    refine ⟨_, hset.append (.one _ _ _), fun vs'' hv'' hagree => ?_⟩
    have hvalue := h vs' (hset.onlyIssued hv) fun _ _ => rfl
    have hc := hagree (Coord.variable ⟨base, seq⟩) (by simp [varNames])
    simp only [List.map_cons, List.map_nil, List.cons.injEq, and_true] at hvalue
    rw [Values.set, if_pos rfl, hvalue] at hc
    simp [reading, Tree.putBack_reading, hc]
  | @block base role rule line ps cs ps' ht statements ih =>
    intro hf hw hd vs hv
    refine ⟨vs, ⟨fun _ => rfl, fun _ _ => rfl⟩, fun vs'' hv'' _ => ?_⟩
    have h := ih (hf.statements ht) (hw.parts rfl) hd vs'' hv''
    obtain ⟨-, rfl⟩ := rule_of_statements ht
    simp [putBack, h]
  | @plainString base role line t ht text =>
    exact fun _ _ _ vs hv => ⟨vs, .refl _ _, fun _ _ _ => by
      simp [putBack, Tree.putBackEach_eq]⟩
  | @string base role line t cs before first rest ht hasCode pieces ih =>
    intro hf hw
    have := hw.simpleNode.noCode rfl t (by simp [Tree.parts])
    rw [hasCode] at this
    cases this
  | noStatements => exact fun _ _ _ vs _ => rfl
  | @statements base t ts cs ds before t' ts' first others ih ih' =>
    intro hf hw hd vs hv
    rw [varNames, List.map_append, List.nodup_append] at hd
    obtain ⟨-, _, hl, hp⟩ := first.made hg hP hf.statement
    obtain rfl := List.singleton_inj.1 hl
    obtain ⟨vs', hset, h⟩ := ih hf.statement (hw.one rfl rfl) hd.1 vs hv
    have hv' := hset.onlyIssued hv
    have ht := h vs' hv' fun _ _ => rfl
    simp only [List.map_cons, List.map_nil, List.cons.injEq, and_true] at ht
    rw [hset.drops, Tree.putBackList_own hp.turns.ownLine, ht,
      ih' hf.otherStatements (hw.others rfl rfl) hd.2.1 vs' hv']
  | _ => exact fun _ _ _ => trivial

end Hoist

end StoryLang
