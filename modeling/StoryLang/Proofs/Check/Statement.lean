/-
Checking a story gives it back as it was.

The checks of values follow rows of parts in several ways, which all check
some of the parts and keep the others. What they ensure of a row is shown from
what they ensure of its trees, and of trees by induction on their form. The
checks of statements go the same way.
-/
import StoryLang.Proofs.Check.Contract
import StoryLang.Proofs.Check.Retold

/-! ## Values -/

namespace StoryLang.Check

variable {g : Grammar} {t : Tree} {rule : Rule} {line : Option Coord} {ps : List Tree}

/-- What checking a row of parts ensures, whichever way it is followed. -/
structure Rows (g : Grammar) (ps : List Tree) : Prop where
  firsts : ∀ e n, Ensures e.registry (firsts e n ps) fun out => List.Forall₂ (Retold g) ps out.1
  entries : ∀ e, Ensures e.registry (entries e ps) fun out => List.Forall₂ (Retold g) ps out.1
  fragments : ∀ e ty,
    Ensures e.registry (fragments e ty ps) fun out => List.Forall₂ (Retold g) ps out.1
  arguments : ∀ e, Ensures e.registry (argumentsOf e ps) fun out => Found g .arguments ps out.1
  supplied : ∀ e seen,
    Ensures e.registry (suppliedBy e seen ps) fun out => List.Forall₂ (Retold g) ps out.1

/-- What checking a value ensures: the block of a call is left alone. -/
structure Checks (g : Grammar) (t : Tree) : Prop where
  value : ∀ e, Ensures e.registry (value e t) fun out =>
    Retold g t out.1 ∧ (t.isCall = true → out.1.find? .block = t.find? .block)
  rows : Rows g t.parts

theorem Rows.nil : Rows g [] where
  firsts _ n := by cases n <;> exact ensures_pure .nil
  entries _ := ensures_pure .nil
  fragments _ _ := ensures_pure .nil
  arguments _ := ensures_pure (by simp [Found])
  supplied _ _ := ensures_pure .nil

theorem Rows.token {u : Token} (h : Rows g ps) : Rows g (.token u :: ps) where
  firsts e n := by
    unfold Check.firsts
    exact (h.firsts e n).bind fun _ h => ensures_pure (.cons (.refl (.token u)) h)
  entries e := by
    unfold Check.entries
    exact (h.entries e).bind fun _ h => ensures_pure (.cons (.refl (.token u)) h)
  fragments e ty := by
    unfold Check.fragments
    exact (h.fragments e ty).bind fun _ h => ensures_pure (.cons (.refl (.token u)) h)
  arguments e := by
    unfold argumentsOf
    exact (h.arguments e).mono fun _ h => h.skip rfl
  supplied e seen := by
    unfold suppliedBy
    exact (h.supplied e seen).bind fun _ h => ensures_pure (.cons (.refl (.token u)) h)

theorem Rows.node {inner : List Tree} (hn : Formed Token.Sound g .plain (.node rule line inner))
    (hf : ∀ p ∈ ps, Formed Token.Sound g .plain p) (ht : Checks g (.node rule line inner)) (h : Rows g ps) :
    Rows g (.node rule line inner :: ps) where
  firsts e n := by
    cases n with
    | zero =>
      unfold Check.firsts
      exact ensures_pure (Retold.row_refl (List.forall_mem_cons.2 ⟨hn, hf⟩))
    | succ n =>
      unfold Check.firsts
      refine (ht.value e).bind fun out hv => (h.firsts e n).bind fun rest hr => ensures_pure ?_
      exact .cons hv.1 hr
  entries e := by
    unfold Check.entries
    refine (ht.rows.firsts e 2).bind fun out hv => (h.entries e).bind fun rest hr => ensures_pure ?_
    exact .cons (.node hn hv) hr
  fragments e ty := by
    unfold Check.fragments
    split
    · have rest : ∀ ty, Ensures e.registry (Check.fragments e ty ps >>= fun out =>
          pure (.node rule line inner :: out.1, out.2)) fun out =>
            List.Forall₂ (Retold g) (.node rule line inner :: ps) out.1 :=
        fun ty => (h.fragments e ty).bind fun out hr => ensures_pure (.cons (.refl hn) hr)
      split
      · exact runs_pure.bind rest
      · exact reports_fieldType.runs.bind rest
    · refine (ht.rows.firsts e 1).bind fun out hv => reports_indexType.runs.bind fun ty => ?_
      refine (h.fragments e ty).bind fun rest hr => ensures_pure ?_
      exact .cons (.node hn hv) hr
  arguments e := by
    by_cases hr : rule = .arguments
    · subst hr
      unfold argumentsOf
      refine (ht.rows.supplied e []).bind fun out hv => ensures_pure ?_
      exact .here rfl (.node hn hv)
    · have hc : argumentsOf e (.node rule line inner :: ps) = argumentsOf e ps := by
        cases rule <;> first | exact absurd rfl hr | rfl
      rw [hc]
      exact (h.arguments e).mono fun _ h => h.skip (by simp [Tree.isA, Tree.rule?, hr])
  supplied e seen := by
    unfold suppliedBy
    split
    · exact (h.supplied e seen).bind fun out hr => ensures_pure (.cons (.refl hn) hr)
    · rename_i name _
      have rest : Ensures e.registry (Check.firsts e 1 inner >>= fun out =>
          suppliedBy e (name.literal :: seen) ps >>= fun others =>
          pure (Tree.node rule line out.1 :: others.1,
            (⟨name.literal, out.2.getD 0 .any, name.position⟩ : Supplied) :: others.2)) fun out =>
            List.Forall₂ (Retold g) (.node rule line inner :: ps) out.1 := by
        refine (ht.rows.firsts e 1).bind fun out hv => ?_
        exact (h.supplied e _).bind fun others hr => ensures_pure (.cons (.node hn hv) hr)
      split
      · exact ensures_report rfl fun _ => rest
      · exact rest

/-- What checking a row ensures follows from what checking its trees does. -/
theorem Rows.of (hf : ∀ p ∈ ps, Formed Token.Sound g .plain p) (h : ∀ p ∈ ps, Checks g p) : Rows g ps := by
  induction ps with
  | nil => exact .nil
  | cons p ps ih =>
    simp only [List.forall_mem_cons] at hf h
    cases p with
    | token u => exact (ih hf.2 h.2).token
    | node r l inner => exact (ih hf.2 h.2).node hf.1 hf.2 h.1

/-! ## Mutations -/

/-- What is no link is left alone. -/
theorem ensures_noLinks {e : Env} {ty : Ty} {ts : List Tree}
    (h : ∀ p ∈ ts, p.isA .mutationFragment = false) :
    Ensures e.registry (links e ty ts) fun out => out.1 = ts := by
  induction ts generalizing ty with
  | nil => exact ensures_pure rfl
  | cons p ts ih =>
    simp only [List.forall_mem_cons] at h
    have hc : links e ty (p :: ts) = (do
        let out ← links e ty ts
        return (p :: out.1, out.2)) := by
      cases p with
      | token u => rfl
      | node r l ps => cases r <;> first | rfl | simp [Tree.isA, Tree.rule?] at h
    rw [hc]
    exact (ih h.2).bind fun out h => ensures_pure (by simp [h])

/-- The link of a mutation. -/
theorem ensures_links {e : Env} {ty : Ty} {link : Tree} {extra : List Tree}
    (hl : link.isA .mutationFragment = true) (hf : Formed Token.Sound g .plain link) (hr : Rows g link.parts)
    (hx : ∀ p ∈ extra, p.isA .mutationFragment = false) :
    Ensures e.registry (links e ty (link :: extra)) fun out =>
      ∃ link', out.1 = link' :: extra ∧ Retold g link link' := by
  obtain ⟨line, ps, rfl⟩ := Tree.isA_iff.1 hl
  unfold links
  refine (hr.arguments e).bind fun out hg => reports_mutationCall.runs.bind fun ty => ?_
  refine (ensures_noLinks hx).bind fun rest h => ensures_pure ?_
  cases hf with
  | node content own parts =>
    rw [h]
    exact ⟨_, rfl, .node (.node content own parts) (hg.put parts)⟩

theorem asMutation_eq {subject given : Tree} {command : Token} {extra : List Tree}
    (hg : given.isA .arguments = true) (hx : ∀ p ∈ extra, inLink p = false) :
    asMutation subject (.token command :: given :: extra) =
      subject :: .of .mutationFragment [.token command, given] :: extra := by
  have h1 : inLink (.token command) = true := rfl
  have h2 : inLink given = true := by simp [inLink, hg]
  have h3 : extra.filter inLink = [] := List.filter_eq_nil_iff.2 (by simpa using hx)
  have h4 : extra.filter (!inLink ·) = extra := List.filter_eq_self.2 (by simpa using hx)
  simp [asMutation, h1, h2, h3, h4]

/-- A call that is a mutation. Its output and block stay behind the link. -/
theorem ensures_callAsMutation {e : Env} (h : Formed Token.Sound g .plain (.node .serviceCall line ps))
    (hc : ∀ p ∈ ps, Checks g p) :
    Ensures e.registry (callAsMutation e ps) fun out =>
      Retold g (.node .serviceCall line ps) (.node .mutation line out.1) ∧
        out.1.find? (·.isA .block) = ps.find? (·.isA .block) := by
  have hf := h
  cases h with
  | node content own parts =>
    cases content with
    | @serviceCall _ subject command given extra path named arguments extras =>
      obtain ⟨sline, sps, rfl⟩ := Tree.isA_iff.1 path
      obtain ⟨gline, gps, rfl⟩ := Tree.isA_iff.1 arguments
      simp only [List.forall_mem_cons] at parts hc
      have hkept : ∀ p ∈ extra, inLink p = false ∧ p.isA .mutationFragment = false := by
        intro p hp
        rcases extras.each p hp with h | h <;> obtain ⟨_, _, rfl⟩ := Tree.isA_iff.1 h <;>
          exact ⟨rfl, rfl⟩
      unfold callAsMutation
      refine (hc.1.value e).bind fun out hs => ?_
      unfold argumentsOf argumentsOf
      simp only [bind_assoc, pure_bind]
      refine (hc.2.2.1.rows.supplied e []).bind fun given' hg => reports_mutationCall.runs.bind fun ty => ?_
      refine (ensures_noLinks ?_).bind fun rest hrest => ensures_pure ?_
      · simp only [List.forall_mem_cons]
        exact ⟨rfl, rfl, fun p hp => (hkept p hp).2⟩
      · have hput : Tree.putFirst .arguments (some (.node .arguments gline given'.1)) rest.1 =
            .token command :: .node .arguments gline given'.1 :: extra := by
          simp [hrest, Tree.putFirst, Tree.isA, Tree.rule?]
        have hsub : out.1.isA .block = false := hs.1.isBlock_eq
        simp only [hput]
        rw [asMutation_eq rfl fun p hp => (hkept p hp).1]
        refine ⟨.toMutation hf hs.1 (.node parts.2.2.1 hg), ?_⟩
        rw [List.find?_cons_of_neg (by simp [hsub])]
        rfl

/-! ## Values -/

/-- A call whose arguments are checked. -/
theorem retold_arguments {given : Option Tree} (hf : Formed Token.Sound g .plain (.node rule line ps))
    (h : Found g .arguments ps given) :
    Retold g (.node rule line ps) (.node rule line (Tree.putFirst .arguments given ps)) ∧
      ((Tree.node rule line ps).isCall = true →
        (Tree.node rule line (Tree.putFirst .arguments given ps)).find? .block =
          (Tree.node rule line ps).find? .block) := by
  have hparts : ∀ p ∈ ps, Formed Token.Sound g .plain p := by
    cases hf with
    | node _ _ parts => exact parts
  exact ⟨.node hf (h.put hparts), fun _ => h.find?_put _ rfl (by simp)⟩

theorem checks_of_formed (h : Formed Token.Sound g .plain t) : Checks g t := by
  induction h with
  | token u => exact ⟨fun e => ensures_pure ⟨.refl (.token u), by simp [Tree.isCall, Tree.rule?]⟩, .nil⟩
  | @node rule line ps content own parts ih =>
    have hf : Formed Token.Sound g .plain (.node rule line ps) := .node content own parts
    have rows : Rows g ps := .of parts ih
    refine ⟨fun e => ?_, rows⟩
    have hsame : ∀ ty : Ty, Ensures e.registry (pure (Tree.node rule line ps, ty)) fun out =>
        Retold g (.node rule line ps) out.1 ∧ ((Tree.node rule line ps).isCall = true →
          out.1.find? .block = (Tree.node rule line ps).find? .block) :=
      fun ty => ensures_pure ⟨.refl hf, fun _ => rfl⟩
    have hnode : ∀ {ps'}, rule.isCall = false → List.Forall₂ (Retold g) ps ps' →
        Retold g (.node rule line ps) (.node rule line ps') ∧
          ((Tree.node rule line ps).isCall = true →
            (Tree.node rule line ps').find? .block = (Tree.node rule line ps).find? .block) :=
      fun hr h => ⟨.node hf h, by simp [Tree.isCall, Tree.rule?, hr]⟩
    cases rule with
    | list =>
      unfold value
      exact (rows.firsts e _).bind fun out h => ensures_pure (hnode rfl h)
    | map =>
      unfold value
      exact (rows.entries e).bind fun out h => ensures_pure (hnode rfl h)
    | path =>
      unfold value
      split
      · exact hsame _
      · refine reports_lookup.runs.bind fun found => ?_
        split
        · exact ensures_report rfl fun _ => hsame _
        · exact (rows.fragments e _).bind fun out h => ensures_pure (hnode rfl h)
    | binaryExpression =>
      unfold value
      refine (rows.firsts e 2).bind fun out h => reports_betweenType.runs.bind fun ty => ?_
      exact ensures_pure (hnode rfl h)
    | unaryExpression =>
      unfold value
      refine (rows.firsts e 1).bind fun out h => reports_beforeType.runs.bind fun ty => ?_
      exact ensures_pure (hnode rfl h)
    | cast =>
      unfold value
      refine (rows.firsts e 1).bind fun out h => reports_castType.runs.bind fun ty => ?_
      exact ensures_pure (hnode rfl h)
    | expressionStatement =>
      unfold value
      exact (rows.firsts e 1).bind fun out h => ensures_pure (hnode rfl h)
    | serviceCall =>
      have hgiven : ∀ {β : Type} {f : Option Tree × List Supplied → Check β} {post : β → Prop},
          (∀ out, Found g .arguments ps out.1 → Ensures e.registry (f out) post) →
            Ensures e.registry (argumentsOf e ps >>= f) post :=
        fun hb => (rows.arguments e).bind hb
      unfold value
      split
      · exact hsame _
      · split
        · exact hsame _
        · dsimp only
          refine reports_lookup.runs.bind fun found => ?_
          split
          · split
            · refine ensures_report rfl fun _ => hgiven fun out h => ?_
              exact ensures_pure (retold_arguments hf h)
            · refine hgiven fun out h => runs_commandCall.bind fun ty => ?_
              exact ensures_pure (retold_arguments hf h)
          · split
            · exact hgiven fun out h => ensures_pure (retold_arguments hf h)
            · refine (ensures_callAsMutation hf ih).bind fun out h => ensures_pure ?_
              exact ⟨h.1, fun _ => h.2⟩
    | mutation =>
      cases content with
      | @mutation subject link extra fits linked extras =>
        have hx : ∀ p ∈ extra, p.isA .mutationFragment = false := by
          intro p hp
          rcases extras.each p hp with h | h <;> exact Tree.isA_ne h (by simp)
        obtain ⟨_, _, _, rfl, -⟩ := Tree.fits_iff.1 fits
        simp only [List.forall_mem_cons] at parts ih
        unfold value mutation
        simp only [bind_assoc, pure_bind]
        refine (ih.1.value e).bind fun out hs => ?_
        refine (ensures_links linked parts.2.1 ih.2.1.rows hx).bind fun rest hl => ?_
        obtain ⟨link', hrest, hlink⟩ := hl
        refine ensures_pure ⟨?_, fun _ => ?_⟩
        · rw [hrest]
          exact .node hf (.cons hs.1 (.cons hlink (Retold.row_refl parts.2.2)))
        · have h1 := hs.1.isBlock_eq.trans (Tree.fits_isA (r := .block) fits ⟨rfl, rfl⟩)
          have h2 := hlink.isBlock_eq.trans (@Tree.isA_ne _ .block _ linked (by simp))
          rw [hrest]
          simp only [Tree.find?, Tree.parts]
          rw [List.find?_cons_of_neg (by simp [h1]), List.find?_cons_of_neg (by simp [h2]),
            List.find?_cons_of_neg (by simp [Tree.fits_isA (r := .block) fits ⟨rfl, rfl⟩]),
            List.find?_cons_of_neg (by simp [@Tree.isA_ne _ .block _ linked (by simp)])]
    | functionCall =>
      unfold value
      refine (rows.arguments e).bind fun out h => reports_functionCall.runs.bind fun ty => ?_
      exact ensures_pure (retold_arguments hf h)
    | _ => exact hsame _

end StoryLang.Check

/-! ## Statements -/

namespace StoryLang.Check

variable {g : Grammar} {t : Tree} {rule : Rule} {line : Option Coord} {ps ps' ps'' : List Tree}

theorem Retold.row_trans (h : List.Forall₂ (Retold g) ps ps')
    (h' : List.Forall₂ (Retold g) ps' ps'') : List.Forall₂ (Retold g) ps ps'' := by
  induction h generalizing ps'' with
  | nil => exact h'
  | cons h _ ih =>
    cases h' with
    | cons h' hs => exact .cons (h.trans h') (ih hs)

theorem Retold.row_formed (h : List.Forall₂ (Retold g) ps ps') : ∀ p ∈ ps', Formed Token.Sound g .plain p :=
  forall₂_each h (p := fun _ => True) (by simp) fun _ _ h _ => h.formed

/-- The part that was found keeps its place if the parts before were checked. -/
theorem Found.after {new : Option Tree} (h : Found g rule ps new)
    (hp : ps'.find? (·.isA rule) = ps.find? (·.isA rule)) : Found g rule ps' new := by
  unfold Found at *
  rwa [hp]

/-! ## Nodes that are put back -/

/-- What checking gives back for a node of a row, if it is there. -/
def FoundAt (g : Grammar) (i : Nat) (ps : List Tree) (new : Option Tree) : Prop :=
  match (ps.filter Tree.isNode)[i]? with
  | none => new = none
  | some t => ∃ t', new = some t' ∧ Retold g t t'

theorem FoundAt.put {i : Nat} {new : Option Tree} (h : FoundAt g i ps new)
    (hf : ∀ p ∈ ps, Formed Token.Sound g .plain p) : List.Forall₂ (Retold g) ps (Tree.putNode new i ps) := by
  cases new with
  | none => cases ps <;> exact Retold.row_refl hf
  | some n =>
    induction ps generalizing i with
    | nil => exact .nil
    | cons p ps ih =>
      simp only [List.forall_mem_cons] at hf
      by_cases hp : p.isNode = true
      · cases i with
        | zero =>
          obtain ⟨p', h, hp'⟩ : ∃ t', some n = some t' ∧ Retold g p t' := by simpa [FoundAt, hp] using h
          obtain rfl := Option.some.inj h
          simpa [Tree.putNode, hp] using List.Forall₂.cons hp' (Retold.row_refl hf.2)
        | succ i =>
          have h : FoundAt g i ps (some n) := by simpa [FoundAt, hp] using h
          simpa [Tree.putNode, hp] using List.Forall₂.cons (.refl hf.1) (ih hf.2 h)
      · have h : FoundAt g i ps (some n) := by simpa [FoundAt, hp] using h
        simpa [Tree.putNode, hp] using List.Forall₂.cons (.refl hf.1) (ih hf.2 h)

/-- Putting back a node of another rule does not change which part is the first of a rule. -/
theorem FoundAt.find?_put (rule : Rule) {i : Nat} {new : Option Tree} (h : FoundAt g i ps new)
    (hr : rule.stays = true)
    (ht : ∀ t, (ps.filter Tree.isNode)[i]? = some t → t.isA rule = false) :
    (Tree.putNode new i ps).find? (·.isA rule) = ps.find? (·.isA rule) := by
  cases new with
  | none => cases ps <;> rfl
  | some n =>
    induction ps generalizing i with
    | nil => rfl
    | cons p ps ih =>
      by_cases hp : p.isNode = true
      · cases i with
        | zero =>
          obtain ⟨p', h, hp'⟩ : ∃ t', some n = some t' ∧ Retold g p t' := by simpa [FoundAt, hp] using h
          obtain rfl := Option.some.inj h
          have hno := ht p (by simp [hp])
          have hno' := (hp'.retells.isA_eq hr).trans hno
          simp [Tree.putNode, hp, hno, hno']
        | succ i =>
          have h : FoundAt g i ps (some n) := by simpa [FoundAt, hp] using h
          have ht := fun t h => ht t (by simpa [hp] using h)
          simp [Tree.putNode, hp, List.find?_cons, ih ht h]
      · have h : FoundAt g i ps (some n) := by simpa [FoundAt, hp] using h
        have ht := fun t h => ht t (by simpa [hp] using h)
        simp [Tree.putNode, hp, List.find?_cons, ih ht h]

theorem ensures_nodeValue {e : Env} {i : Nat} (hf : ∀ p ∈ ps, Formed Token.Sound g .plain p) :
    Ensures e.registry (nodeValue e i ps) fun out => FoundAt g i ps out.1 := by
  unfold nodeValue
  split
  · rename_i h
    exact ensures_pure (by simp [FoundAt, h])
  · rename_i t h
    have ht : t ∈ ps := List.mem_of_mem_filter (List.mem_of_getElem? h)
    refine ((checks_of_formed (hf t ht)).value e).bind fun out hv => ensures_pure ?_
    simpa [FoundAt, h] using hv.1

theorem ensures_condition {e : Env} (hf : Formed Token.Sound g .plain t) :
    Ensures e.registry (condition e t) (Retold g t) := by
  refine ((checks_of_formed hf).value e).bind fun out hv => ?_
  dsimp only
  split
  · exact ensures_report rfl fun _ => ensures_pure hv.1
  · exact ensures_pure hv.1

theorem ensures_assignment {e : Env} (hf : ∀ p ∈ ps, Formed Token.Sound g .plain p) :
    Ensures e.registry (assignment e t ps) fun ps' => List.Forall₂ (Retold g) ps ps' := by
  refine (ensures_nodeValue hf).bind fun out hv => ?_
  have hput := hv.put hf
  dsimp only
  split
  · exact ensures_pure hput
  · rename_i path hpath
    split
    · exact ensures_pure hput
    · split
      · have hmem := List.mem_of_find?_eq_some hpath
        refine ((checks_of_formed (Retold.row_formed hput path hmem)).value e).bind fun again ha => ?_
        refine reports_assignable.runs.bind fun _ => ensures_pure (Retold.row_trans hput ?_)
        refine FoundAt.put ?_ (Retold.row_formed hput)
        have h0 : ((Tree.putNode out.1 1 ps).filter Tree.isNode)[0]? = some path := by
          rw [← hpath, ← List.head?_filter, List.head?_eq_getElem?]
        simpa [FoundAt, h0] using ha.1
      · refine reports_lookup.runs.bind fun found => ?_
        split
        · exact reports_assignable.runs.bind fun _ => ensures_pure hput
        · exact runs_declare.bind fun _ => ensures_pure hput

theorem ensures_returned {e : Env} (hf : ∀ p ∈ ps, Formed Token.Sound g .plain p) :
    Ensures e.registry (returned e ps) fun ps' => List.Forall₂ (Retold g) ps ps' := by
  refine (ensures_nodeValue hf).bind fun out hv => ?_
  have hput := hv.put hf
  dsimp only
  split
  · split
    · exact ensures_report rfl fun _ => ensures_pure hput
    · exact ensures_pure hput
  · exact ensures_pure hput

/-! ## Rows of statements -/

/-- What checking a row of statements or branches ensures, whichever way it is followed. -/
structure Bodies (g : Grammar) (ps : List Tree) : Prop where
  statements : ∀ e flow,
    Ensures e.registry (statements e flow ps) fun ps' => List.Forall₂ (Retold g) ps ps'
  bodyOf : ∀ e, Ensures e.registry (bodyOf e ps) (Found g .block ps)
  blockOf : ∀ e, Ensures e.registry (blockOf e ps) (Found g .block ps)
  branches : ∀ e, Ensures e.registry (branches e ps) fun ps' => List.Forall₂ (Retold g) ps ps'
  branch : ∀ e, Ensures e.registry (branch e ps) fun ps' => List.Forall₂ (Retold g) ps ps'
  handlers : ∀ e, Ensures e.registry (handlers e ps) fun ps' => List.Forall₂ (Retold g) ps ps'

structure ChecksAll (g : Grammar) (t : Tree) : Prop where
  statement : ∀ e, Ensures e.registry (statement e t) (Retold g t)
  bodies : Bodies g t.parts

theorem Bodies.nil : Bodies g [] where
  statements _ _ := ensures_pure .nil
  bodyOf _ := ensures_pure (by simp [Found])
  blockOf _ := ensures_pure (by simp [Found])
  branches _ := ensures_pure .nil
  branch _ := ensures_pure .nil
  handlers _ := ensures_pure .nil

theorem Bodies.token {u : Token} (h : Bodies g ps) : Bodies g (.token u :: ps) where
  statements e flow := by
    unfold Check.statements
    exact (h.statements e flow).bind fun _ h => ensures_pure (.cons (.refl (.token u)) h)
  bodyOf e := by
    unfold Check.bodyOf
    exact (h.bodyOf e).mono fun _ h => h.skip rfl
  blockOf e := by
    unfold Check.blockOf
    exact (h.blockOf e).mono fun _ h => h.skip rfl
  branches e := by
    unfold Check.branches
    exact (h.branches e).bind fun _ h => ensures_pure (.cons (.refl (.token u)) h)
  branch e := by
    unfold Check.branch
    exact (h.branch e).bind fun _ h => ensures_pure (.cons (.refl (.token u)) h)
  handlers e := by
    unfold Check.handlers
    exact (h.handlers e).bind fun _ h => ensures_pure (.cons (.refl (.token u)) h)

/-- A node whose block was checked. -/
theorem retold_block {body : Option Tree} (hf : Formed Token.Sound g .plain (.node rule line ps))
    (h : Found g .block ps body) :
    Retold g (.node rule line ps) (.node rule line (Tree.putFirst .block body ps)) := by
  cases hf with
  | node content own parts => exact .node (.node content own parts) (h.put parts)

theorem Bodies.node {inner : List Tree} (hn : Formed Token.Sound g .plain (.node rule line inner))
    (ht : ChecksAll g (.node rule line inner)) (h : Bodies g ps) :
    Bodies g (.node rule line inner :: ps) where
  statements e flow := by
    unfold Check.statements
    refine reports_enter.runs.bind fun flow => (ht.statement e).bind fun t' hv => ?_
    exact (h.statements e _).bind fun rest hr => ensures_pure (.cons hv hr)
  bodyOf e := by
    by_cases hr : rule = .block
    · subst hr
      unfold Check.bodyOf
      exact (ht.bodies.statements e .open).bind fun body hb =>
        ensures_pure (.here rfl (.node hn hb))
    · have hc : Check.bodyOf e (.node rule line inner :: ps) = Check.bodyOf e ps := by
        cases rule <;> first | exact absurd rfl hr | rfl
      rw [hc]
      exact (h.bodyOf e).mono fun _ h => h.skip (by simp [Tree.isA, Tree.rule?, hr])
  blockOf e := by
    by_cases hr : rule = .block
    · subst hr
      unfold Check.blockOf
      exact (ensures_inOwnScope (ht.bodies.statements e .open)).bind fun body hb =>
        ensures_pure (.here rfl (.node hn hb))
    · have hc : Check.blockOf e (.node rule line inner :: ps) = Check.blockOf e ps := by
        cases rule <;> first | exact absurd rfl hr | rfl
      rw [hc]
      exact (h.blockOf e).mono fun _ h => h.skip (by simp [Tree.isA, Tree.rule?, hr])
  branches e := by
    have other : Ensures e.registry (condition e (.node rule line inner) >>= fun first =>
        Check.branches e ps >>= fun rest => pure (first :: rest)) fun ps' =>
          List.Forall₂ (Retold g) (.node rule line inner :: ps) ps' :=
      (ensures_condition hn).bind fun first hv => (h.branches e).bind fun rest hr =>
        ensures_pure (.cons hv hr)
    cases rule with
    | block =>
      unfold Check.branches
      refine (ensures_inOwnScope (ht.bodies.statements e .open)).bind fun body hb => ?_
      exact (h.branches e).bind fun rest hr => ensures_pure (.cons (.node hn hb) hr)
    | elifBlock =>
      unfold Check.branches
      refine (ht.bodies.branch e).bind fun inside hb => (h.branches e).bind fun rest hr => ?_
      exact ensures_pure (.cons (.node hn hb) hr)
    | elseBlock =>
      unfold Check.branches
      refine (ht.bodies.blockOf e).bind fun body hb => (h.branches e).bind fun rest hr => ?_
      exact ensures_pure (.cons (retold_block hn hb) hr)
    | _ => exact other
  branch e := by
    have other : Ensures e.registry (condition e (.node rule line inner) >>= fun first =>
        Check.branch e ps >>= fun rest => pure (first :: rest)) fun ps' =>
          List.Forall₂ (Retold g) (.node rule line inner :: ps) ps' :=
      (ensures_condition hn).bind fun first hv => (h.branch e).bind fun rest hr =>
        ensures_pure (.cons hv hr)
    cases rule with
    | block =>
      unfold Check.branch
      refine (ensures_inOwnScope (ht.bodies.statements e .open)).bind fun body hb => ?_
      exact (h.branch e).bind fun rest hr => ensures_pure (.cons (.node hn hb) hr)
    | _ => exact other
  handlers e := by
    have other : Ensures e.registry (Check.handlers e ps >>= fun rest =>
        pure (Tree.node rule line inner :: rest)) fun ps' =>
          List.Forall₂ (Retold g) (.node rule line inner :: ps) ps' :=
      (h.handlers e).bind fun rest hr => ensures_pure (.cons (.refl hn) hr)
    cases rule with
    | block =>
      unfold Check.handlers
      refine (ensures_inOwnScope (ht.bodies.statements e .open)).bind fun body hb => ?_
      exact (h.handlers e).bind fun rest hr => ensures_pure (.cons (.node hn hb) hr)
    | catchBlock =>
      unfold Check.handlers
      refine runs_push.bind fun _ => runs_declareOutput.bind fun _ => ?_
      refine (ht.bodies.bodyOf e).bind fun body hb => runs_pop.bind fun _ => ?_
      exact (h.handlers e).bind fun rest hr => ensures_pure (.cons (retold_block hn hb) hr)
    | finallyBlock =>
      unfold Check.handlers
      refine (ht.bodies.blockOf e).bind fun body hb => (h.handlers e).bind fun rest hr => ?_
      exact ensures_pure (.cons (retold_block hn hb) hr)
    | _ => exact other

theorem Bodies.of (hf : ∀ p ∈ ps, Formed Token.Sound g .plain p) (h : ∀ p ∈ ps, ChecksAll g p) :
    Bodies g ps :=
  Tree.byRow (fun p hp => And.intro (hf p hp) (h p hp)) .nil .token fun hp => .node hp.1 hp.2

/-! ## Statements -/

/-- A call in a list of statements, whose block is checked behind it. -/
theorem ensures_callBlock {e : Env} {out : Tree × Ty} (hc : rule.isCall = true)
    (hv : Retold g (.node rule line ps) out.1 ∧ ((Tree.node rule line ps).isCall = true →
      out.1.find? .block = (Tree.node rule line ps).find? .block))
    (hb : ∀ e, Ensures e.registry (blockOf e ps) (Found g .block ps)) :
    Ensures e.registry (do
      declareOutput out.1 out.2
      let body ← blockOf e ps
      match out.1 with
      | .node rule line ps => return .node rule line (Tree.putFirst .block body ps)
      | t => return t) (Retold g (.node rule line ps)) := by
  obtain ⟨hr, hfind⟩ := hv
  refine runs_declareOutput.bind fun _ => (hb e).bind fun body hbody => ?_
  obtain ⟨t', ty⟩ := out
  cases t' with
  | token u => exact ensures_pure hr
  | node rule' line' ps' =>
    have hkept := hfind (by simp [Tree.isCall, Tree.rule?, hc])
    exact ensures_pure (hr.trans (retold_block hr.formed (hbody.after hkept)))

theorem checksAll_of_formed (h : Formed Token.Sound g .plain t) : ChecksAll g t := by
  induction h with
  | token u => exact ⟨fun e => ensures_pure (.refl (.token u)), .nil⟩
  | @node rule line ps content own parts ih =>
    have hf : Formed Token.Sound g .plain (.node rule line ps) := .node content own parts
    have bodies : Bodies g ps := .of parts ih
    have rows := (checks_of_formed hf).rows
    have value := (checks_of_formed hf).value
    refine ⟨fun e => ?_, bodies⟩
    cases rule with
    | assignment =>
      unfold statement
      exact (ensures_assignment parts).bind fun ps' h => ensures_pure (.node hf h)
    | serviceCall =>
      unfold statement
      exact (value e).bind fun out hv => ensures_callBlock rfl hv bodies.blockOf
    | mutation =>
      unfold statement
      exact (value e).bind fun out hv => ensures_callBlock rfl hv bodies.blockOf
    | functionCall | expressionStatement =>
      unfold statement
      exact (value e).bind fun out hv => ensures_pure hv.1
    | ifBlock =>
      unfold statement
      exact (bodies.branches e).bind fun ps' h => ensures_pure (.node hf h)
    | tryBlock =>
      unfold statement
      exact (bodies.handlers e).bind fun ps' h => ensures_pure (.node hf h)
    | returnStatement =>
      unfold statement
      exact (ensures_returned parts).bind fun ps' h => ensures_pure (.node hf h)
    | throwStatement =>
      unfold statement
      exact (ensures_nodeValue parts).bind fun out h => ensures_pure (.node hf (h.put parts))
    | importStatement =>
      unfold statement
      split
      · exact ensures_pure (.refl hf)
      · exact runs_declare.bind fun _ => ensures_pure (.refl hf)
    | whileBlock =>
      have rest : ∀ first, FoundAt g 0 ps first → Ensures e.registry (do
          let body ← blockOf e ps
          return .node .whileBlock line (Tree.putFirst .block body (Tree.putNode first 0 ps)))
          (Retold g (.node .whileBlock line ps)) := by
        refine fun first hfirst => (bodies.blockOf e).bind fun body hbody => ensures_pure ?_
        have hblock := hfirst.find?_put .block rfl (by
          intro t h
          cases content with
          | whileBlock fits block =>
            obtain ⟨r, l, inner, rfl, -⟩ := Tree.fits_iff.1 fits
            obtain rfl : Tree.node r l inner = t := by simpa [Tree.isNode, List.filter_cons] using h
            exact Tree.fits_isA fits ⟨rfl, rfl⟩)
        have hput := Retold.node hf (hfirst.put parts)
        exact hput.trans (retold_block hput.formed (hbody.after hblock))
      unfold statement
      dsimp only
      split
      · rename_i t ht
        rw [map_eq_pure_bind]
        simp only [bind_assoc, pure_bind]
        refine (ensures_condition (parts t (List.mem_of_find?_eq_some ht))).bind fun t' hv => ?_
        refine rest (some t') ?_
        rw [← List.head?_filter, List.head?_eq_getElem?] at ht
        simpa [FoundAt, ht] using hv
      · rename_i ht
        refine rest none ?_
        rw [← List.head?_filter, List.head?_eq_getElem?] at ht
        simp [FoundAt, ht]
    | foreachBlock =>
      unfold statement
      refine (ensures_nodeValue parts).bind fun out hfirst => ?_
      refine reports_iteratedTypes.runs.bind fun tys => runs_push.bind fun _ => runs_declareAll.bind fun _ => ?_
      refine (bodies.bodyOf e).bind fun body hbody => runs_pop.bind fun _ => ensures_pure ?_
      have hblock := hfirst.find?_put .block rfl (by
        intro t h
        cases content with
        | foreachBlock fits output block =>
          obtain ⟨r, l, inner, rfl, -⟩ := Tree.fits_iff.1 fits
          obtain rfl : Tree.node r l inner = t := by simpa [Tree.isNode, List.filter_cons] using h
          exact Tree.fits_isA fits ⟨rfl, rfl⟩)
      have hput := Retold.node hf (hfirst.put parts)
      exact hput.trans (retold_block hput.formed (hbody.after hblock))
    | functionBlock =>
      unfold statement
      split
      · exact ensures_pure (.refl hf)
      · refine runs_push.bind fun _ => reports_topNumber.runs.bind fun floor => ?_
        dsimp only
        refine runs_declareAll.bind fun _ => (bodies.bodyOf _).bind fun body hbody => ?_
        exact runs_pop.bind fun _ => ensures_pure (retold_block hf hbody)
    | whenBlock =>
      unfold statement
      refine (rows.arguments e).bind fun out hgiven => ?_
      have hput := (retold_arguments hf hgiven).1
      dsimp only
      split
      · exact ensures_pure hput
      · refine runs_listening.bind fun ty => runs_push.bind fun _ => runs_declareOutput.bind fun _ => ?_
        refine (bodies.bodyOf e).bind fun body hbody => runs_pop.bind fun _ => ensures_pure ?_
        have hblock := hgiven.find?_put .block rfl (by simp)
        exact hput.trans (retold_block hput.formed (hbody.after hblock))
    | _ => exact ensures_pure (.refl hf)

/-! ## Stories -/

/-- A story whose statements are plain is given back as it was and without reports
of internal errors, unless the registry fails. -/
theorem story_retold {features : Features} {registry : Option Registry} {root : Scope}
    (hf : ∀ p ∈ ps, Formed Token.Sound g .plain p) :
    match story features registry root (.of .start ps) with
    | .ok (t, analysis) =>
      (∀ d ∈ analysis.diagnostics, d.code ≠ .internal) ∧
        ∃ ps', t = .of .start ps' ∧ List.Forall₂ (Retold g) ps ps'
    | .error _ => registry = some .failing := by
  have hall : Bodies g ps := .of hf fun p hp => checksAll_of_formed (hf p hp)
  have h : Ensures registry (tree features registry (.of .start ps)) fun out =>
      ∃ ps', out.1 = .of .start ps' ∧ List.Forall₂ (Retold g) ps ps' := by
    refine Runs.bind (Quiet.ensures logs_signatures) fun functions => ?_
    refine runs_push.bind fun _ => ?_
    exact (hall.statements { features, registry, functions, body := none } .open).bind
      fun ps' h => ensures_pure ⟨ps', rfl, h⟩
  have h := h { scopes := .ofRoot root, reports := [], services := .empty } (List.forall_mem_nil _)
  simp only [story, Bind.bind, Except.bind]
  split at h
  · rename_i out s hx
    rw [hx]
    exact ⟨fun d hd => h.1 d (List.mem_reverse.1 hd), h.2⟩
  · rename_i f hx
    rw [hx]
    exact h

end StoryLang.Check
