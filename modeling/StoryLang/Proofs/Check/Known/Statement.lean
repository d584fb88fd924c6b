/-
Statements are checked for the names they read.

A statement declares names in the top scope and closes again what it opens. So
behind a statement that was checked without errors only what it declares is
known besides, and its block sees what the scopes around it hold and what was
declared for it. The body of a function looks no further than its own scope
unless the feature for it is on.
-/
import StoryLang.Proofs.Check.Known.Value
import StoryLang.Proofs.Check.Statement
import StoryLang.Proofs.Script.Stands

namespace StoryLang

/-! ## Parts that are put back -/

namespace Check

open Script (Scoped Stands Fills isOneOf continuations)
open Value (Emits EmitsAll)

variable {g : Grammar} {e : Env} {a b c : Scopes} {t : Tree} {rule : Rule} {line : Option Coord}
  {ps ps' : List Tree} {body new : Option Tree} {known : String → Prop} {n : String}

/-- The statements of a block that was checked. -/
def statementsOf (body : Option Tree) : List Tree := (body.map Tree.parts).getD []

/-- Putting a part back does not change what is made of the parts of other rules. -/
theorem Found.filterMap_put {α : Type} {f : Tree → Option α} (h : Found g rule ps new)
    (hr : rule.stays = true) (hf : ∀ t, t.isA rule = true → f t = none) :
    (Tree.putFirst rule new ps).filterMap f = ps.filterMap f := by
  induction ps with
  | nil => rfl
  | cons p ps ih =>
    by_cases hp : p.isA rule = true
    · obtain ⟨p', rfl, hp'⟩ : ∃ t', new = some t' ∧ Retold g p t' := by simpa [Found, hp] using h
      simp [Tree.putFirst, hp, hf p hp, hf p' (hp'.retells.settled.isA hr hp)]
    · have h : Found g rule ps new := by simpa [Found, hp] using h
      cases new with
      | none => rfl
      | some n => simp [Tree.putFirst, hp, List.filterMap_cons, ih h]

theorem Found.filter_put {p : Tree → Bool} (h : Found g rule ps new) (hr : rule.stays = true)
    (hp : ∀ t, t.isA rule = true → p t = false) :
    (Tree.putFirst rule new ps).filter p = ps.filter p := by
  rw [← List.filterMap_eq_filter, h.filterMap_put hr fun t ht => by simp [Option.guard, hp t ht]]

/-- The block of a row is the one that was put back. -/
theorem Found.blockOf_put (h : Found g .block ps body) :
    Script.blockOf (Tree.putFirst .block body ps) = statementsOf body := by
  induction ps with
  | nil =>
    have h : body = none := by simpa [Found] using h
    rw [h]
    rfl
  | cons p ps ih =>
    by_cases hp : p.isA .block = true
    · obtain ⟨p', rfl, hp'⟩ : ∃ t', body = some t' ∧ Retold g p t' := by simpa [Found, hp] using h
      simp [Script.blockOf, Tree.putFirst, hp, hp'.isBlock_eq.trans hp, statementsOf]
    · have h : Found g .block ps body := by simpa [Found, hp] using h
      have hskip : Tree.putFirst .block body (p :: ps) = p :: Tree.putFirst .block body ps :=
        putFirst_cons (by simpa using hp)
      rw [hskip, ← ih h, Script.blockOf, List.find?_cons_of_neg hp]
      rfl

theorem outputNames_eq (ps : List Tree) :
    Script.outputNames ps = (outputNames ps).map (·.literal) := by
  unfold Script.outputNames outputNames
  cases ps.find? (·.isA .output) <;> rfl

theorem Found.outputNames_put (h : Found g rule ps new) (hr : rule.stays = true) (ho : rule ≠ .output) :
    Script.outputNames (Tree.putFirst rule new ps) = Script.outputNames ps := by
  unfold Script.outputNames
  rw [h.find?_put .output hr ho.symm]

theorem Found.ofArguments_put (h : Found g rule ps new) (hr : rule.stays = true) (ho : rule ≠ .arguments) :
    Value.ofArguments (Tree.putFirst rule new ps) = Value.ofArguments ps := by
  unfold Value.ofArguments
  rw [h.find?_put .arguments hr ho.symm]

/-- What a call fills a record with does not depend on its block. -/
theorem Found.fill_put {r : Record} (h : Found g .block ps body)
    (hf : Formed Token.Sound g .plain (.node rule line ps)) (hc : rule = .serviceCall ∨ rule = .mutation) :
    Script.fill r (.node rule line (Tree.putFirst .block body ps)) = Script.fill r (.node rule line ps) := by
  have hout := h.outputNames_put rfl (by simp)
  have hargs := h.ofArguments_put rfl (by simp)
  rcases hc with rfl | rfl
  · have hpath := h.find?_put .path rfl (by simp)
    have htokens := h.filterMap_put (f := Tree.asToken?) rfl fun t ht => by
      obtain ⟨_, _, rfl⟩ := Tree.isA_iff.1 ht
      rfl
    simp only [Script.fill, Tree.rule?, Tree.find?, Tree.parts, Script.nameIn?, hpath, htokens, hargs, hout]
  · have hlinks : (Tree.putFirst .block body ps).filter (·.isA .mutationFragment) =
        ps.filter (·.isA .mutationFragment) :=
      h.filter_put rfl fun t ht => Tree.isA_ne ht (by simp)
    have hsubject : ∀ d, Value.ofNode d (Tree.putFirst .block body ps) = Value.ofNode d ps := by
      intro d
      cases hf with
      | node content own parts =>
        cases content with
        | @mutation subject link extra value linked extras =>
          rw [putFirst_cons (Tree.fits_isA value ⟨rfl, rfl⟩)]
          obtain ⟨_, _, _, rfl, -⟩ := Tree.fits_iff.1 value
          rfl
    simp only [Script.fill, Tree.rule?, Tree.findAll, Tree.parts, hlinks, hsubject, hout]

/-! ## Where statements are -/

/-- The scopes are inside of the story, and the root has no names. -/
structure Inside (a : Scopes) : Prop where
  opened : a.inner ≠ []
  bare : ∀ n, a.root.get? n = none

theorem Inside.push (h : Inside a) : Inside a.push := ⟨by simp [Scopes.push], h.bare⟩

theorem Inside.over (h : Inside a) (hb : b.Over a) : Inside b := by
  have hroot : b.dropTop.root = a.dropTop.root := congrArg Scopes.root hb.below
  have hroot : b.root = a.root := hroot
  exact ⟨hb.opened, hroot ▸ h.bare⟩

/-- What the body of a function sees of what is around it. -/
theorem Env.Knows.of_function {name : String} {returns : Ty} (ha : Inside a)
    (h : ({ e with body := some ⟨name, returns, a.push.depth - 1⟩ } : Env).Knows a.push n) :
    e.features.globals = true ∧ e.Knows a n := by
  rcases knows_function.1 h with hroot | h
  · simp [ha.bare n] at hroot
  · exact h

/-- What checking something in a list of statements comes to. -/
def Settles (e : Env) (a : Scopes) (t : Tree) (b : Scopes) : Prop :=
  Inside a → b.Over a ∧ Script.Stands e.features.globals (e.Knows a) (e.Knows b) t

theorem leads_declareOutput {ty : Ty} :
    Leads a (declareOutput t ty) fun _ b => Gains a b (Script.outputNames t.parts) := by
  rw [outputNames_eq]
  exact leads_declareAll

theorem shows_condition (hf : Formed Token.Sound g .plain t) (h : ValueShows e t) :
    Shows a (condition e t) fun t' => Emits (e.Knows a) (Value.ofTree t') ∧ Retold g t t' := by
  refine Shows.also ?_ (ensures_condition hf)
  unfold condition
  refine (h.value a).bind fun out => ?_
  dsimp only
  split
  · exact shows_report rfl fun _ => shows_pure And.left
  · exact shows_pure And.left

theorem shows_listening {root : Token} {event : Option Token} {supplied : List Supplied} :
    Shows a (listening e root event supplied) fun _ => True := by
  rw [listening_eq]
  refine shows_lookup.bind fun found => (?_ : Shows _ _ fun _ => True).mono fun _ _ _ => trivial
  cases found with
  | some found => exact Quiet.shows reports_heard
  | none =>
    unfold heard
    exact shows_useService.bind fun _ => (Quiet.shows reports_unheard).mono fun _ _ _ => trivial

/-! ## Rows of statements -/

/-- What checking a row of statements or branches leads to, whichever way it is followed. -/
structure RowLeads (e : Env) (ps : List Tree) : Prop where
  statements : (∀ p ∈ ps, p.isNode = true → p.isStatement = true) → ∀ a flow,
    Leads a (statements e flow ps) fun ps' b => Inside a →
      b.Over a ∧ Scoped e.features.globals (e.Knows a) ps'
  bodyOf : ∀ a, Leads a (bodyOf e ps) fun body b => Inside a →
    b.Over a ∧ Scoped e.features.globals (e.Knows a) (statementsOf body)
  blockOf : ∀ a, Leads a (blockOf e ps) fun body b => Inside a →
    b = a ∧ Scoped e.features.globals (e.Knows a) (statementsOf body)
  branch : ∀ a, Leads a (branch e ps) fun ps' b => Inside a →
    b = a ∧ (∀ d, Emits (e.Knows a) (Value.ofNode d ps')) ∧
      Scoped e.features.globals (e.Knows a) (Script.blockOf ps')
  branches : ∀ a, Leads a (branches e ps) fun ps' b => Inside a →
    b = a ∧ (∀ d, Emits (e.Knows a) (Value.ofNode d ps')) ∧
      Scoped e.features.globals (e.Knows a) (Script.blockOf ps') ∧
      Scoped e.features.globals (e.Knows a) (ps'.filter (isOneOf (continuations .ifBlock)))
  handlers : ∀ a, Leads a (handlers e ps) fun ps' b => Inside a →
    b = a ∧ Scoped e.features.globals (e.Knows a) (Script.blockOf ps') ∧
      Scoped e.features.globals (e.Knows a) (ps'.filter (isOneOf (continuations .tryBlock)))

/-- What checking a statement leads to, wherever it is. -/
structure TreeLeads (t : Tree) : Prop where
  statement : t.isStatement = true → ∀ e a, Leads a (statement e t) (Settles e a)
  row : ∀ e, RowLeads e t.parts

theorem RowLeads.nil : RowLeads e [] where
  statements _ _ _ := leads_pure fun ha => ⟨.refl ha.opened, .nil⟩
  bodyOf _ := leads_pure fun ha => ⟨.refl ha.opened, .nil⟩
  blockOf _ := leads_pure fun _ => ⟨rfl, .nil⟩
  branch _ := leads_pure fun _ => ⟨rfl, nofun, .nil⟩
  branches _ := leads_pure fun _ => ⟨rfl, nofun, .nil, .nil⟩
  handlers _ := leads_pure fun _ => ⟨rfl, .nil, .nil⟩

/-- A token reads nothing. -/
theorem scoped_token {globals : Bool} {u : Token} : Scoped globals known (.token u :: ps) := by
  have hno : ∀ r, ¬ Script.Describes r (.token u) := by
    rintro r ⟨line, r₀, hr, -⟩
    cases hr
  exact .cons (fun r hr => (hno r hr).elim) (fun r hr => (hno r hr).elim) .nil fun r hr => (hno r hr).elim

theorem RowLeads.token {u : Token} (h : RowLeads e ps) : RowLeads e (.token u :: ps) where
  statements hs a flow := by
    unfold Check.statements
    refine (h.statements (fun p hp => hs p (by simp [hp])) a flow).bind fun rest b => leads_pure ?_
    exact fun hrest ha => ⟨(hrest ha).1, scoped_token⟩
  bodyOf a := by
    unfold Check.bodyOf
    exact h.bodyOf a
  blockOf a := by
    unfold Check.blockOf
    exact h.blockOf a
  branch a := by
    unfold Check.branch
    exact (h.branch a).bind fun rest b => leads_pure id
  branches a := by
    unfold Check.branches
    exact (h.branches a).bind fun rest b => leads_pure id
  handlers a := by
    unfold Check.handlers
    exact (h.handlers a).bind fun rest b => leads_pure id

/-- The statements of a block are listed in a scope of their own. -/
theorem leads_block (h : RowLeads e ps) (hs : ∀ p ∈ ps, p.isNode = true → p.isStatement = true) :
    Leads a (inOwnScope (statements e .open ps)) fun ps' b => Inside a →
      b = a ∧ Scoped e.features.globals (e.Knows a) ps' := by
  refine (leads_inOwnScope fun b => h.statements hs b .open).mono ?_
  rintro ps' b ⟨c, hc, rfl⟩ ha
  obtain ⟨hover, hscoped⟩ := hc ha.push
  exact ⟨hover.ofPush, hscoped.mono fun n hn => hn.of_push⟩

/-- So is a block for which names are declared, and its scope is closed again. -/
theorem leads_closed {α : Type} {x : Check Unit} {names : List String} {f : Option Tree → α}
    (hx : Leads b x fun _ c => Gains b c names) (h : RowLeads e ps)
    (hf : Ensures e.registry (bodyOf e ps) (Found g .block ps)) :
    Leads b (x >>= fun _ => bodyOf e ps >>= fun body => pop >>= fun _ => pure (f body)) fun v c =>
      Inside b → c = b.dropTop ∧ ∃ body, v = f body ∧ Found g .block ps body ∧
        Scoped e.features.globals (fun n => e.Knows b n ∨ n ∈ names) (statementsOf body) := by
  refine hx.bind fun _ c => ((h.bodyOf c).also hf).bind fun body d => leads_pop.bind fun _ d' => ?_
  refine leads_pure ?_
  rintro rfl ⟨hbody, hfound⟩ hgains hb
  have hover := hgains.above hb.opened
  obtain ⟨hover', hscoped⟩ := hbody (hb.over hover)
  exact ⟨(hover'.trans hover).below, body, rfl, hfound, hscoped.mono (hgains.known e)⟩

theorem leads_opened {α : Type} {x : Check Unit} {names : List String} {f : Option Tree → α}
    (hx : ∀ b, Leads b x fun _ c => Gains b c names) (h : RowLeads e ps)
    (hf : Ensures e.registry (bodyOf e ps) (Found g .block ps)) :
    Leads a (push >>= fun _ => x >>= fun _ => bodyOf e ps >>= fun body => pop >>= fun _ => pure (f body))
      fun v c => Inside a → c = a ∧ ∃ body, v = f body ∧ Found g .block ps body ∧
        Scoped e.features.globals (fun n => e.Knows a n ∨ n ∈ names) (statementsOf body) := by
  refine leads_push.bind fun _ b => (leads_closed (hx b) h hf).mono ?_
  rintro v c hbody rfl ha
  obtain ⟨rfl, body, rfl, hfound, hscoped⟩ := hbody ha.push
  exact ⟨Scopes.dropTop_push a, body, rfl, hfound, hscoped.mono fun n hn => hn.imp_left .of_push⟩

/-- The statements of a block that is formed. -/
theorem statements_of_block (hf : Formed Token.Sound g .plain (.node .block line ps)) :
    ∀ p ∈ ps, p.isNode = true → p.isStatement = true := by
  cases hf with
  | node content own parts =>
    cases content with
    | block each => exact fun p hp _ => each p hp

/-- A value in front of a row is the first node of it. -/
theorem emits_ofNode {d : Defect} (hn : t.isNode = true) (h : Emits known (Value.ofTree t)) :
    Emits known (Value.ofNode d (t :: ps)) := by
  cases t with
  | token u => cases hn
  | node r l inner => exact h

theorem blockOf_cons (h : t.isA .block = false) : Script.blockOf (t :: ps) = Script.blockOf ps := by
  simp [Script.blockOf, h]

theorem RowLeads.node {inner : List Tree} (hn : Formed Token.Sound g .plain (.node rule line inner))
    (ht : TreeLeads (.node rule line inner)) (h : RowLeads e ps) :
    RowLeads e (.node rule line inner :: ps) where
  statements hs a flow := by
    unfold Check.statements
    refine Reports.leads (r := none) reports_enter fun flow => ?_
    refine (ht.statement (hs _ (by simp) rfl) e a).bind fun t' b => ?_
    refine (h.statements (fun p hp => hs p (by simp [hp])) b _).bind fun rest c => leads_pure ?_
    intro hrest ht' ha
    obtain ⟨hover, hstands⟩ := ht' ha
    obtain ⟨hover', hscoped⟩ := hrest (ha.over hover)
    exact ⟨hover'.trans hover, hstands.cons hscoped⟩
  bodyOf a := by
    by_cases hr : rule = .block
    · subst hr
      unfold Check.bodyOf
      exact ((ht.row e).statements (statements_of_block hn) a .open).bind fun body b => leads_pure id
    · have hc : Check.bodyOf e (.node rule line inner :: ps) = Check.bodyOf e ps := by
        cases rule <;> first | exact absurd rfl hr | rfl
      rw [hc]
      exact h.bodyOf a
  blockOf a := by
    by_cases hr : rule = .block
    · subst hr
      unfold Check.blockOf
      exact (leads_block (ht.row e) (statements_of_block hn)).bind fun body b => leads_pure id
    · have hc : Check.blockOf e (.node rule line inner :: ps) = Check.blockOf e ps := by
        cases rule <;> first | exact absurd rfl hr | rfl
      rw [hc]
      exact h.blockOf a
  branch a := by
    by_cases hr : rule = .block
    · subst hr
      unfold Check.branch
      refine (leads_block (ht.row e) (statements_of_block hn)).bind fun body b => ?_
      refine (h.branch b).bind fun rest c => leads_pure ?_
      intro hrest hbody ha
      obtain ⟨rfl, hscoped⟩ := hbody ha
      obtain ⟨rfl, -, -⟩ := hrest ha
      exact ⟨rfl, fun _ => Value.emits_error, hscoped⟩
    · have hc : Check.branch e (.node rule line inner :: ps) =
          condition e (.node rule line inner) >>= fun first => Check.branch e ps >>= fun rest =>
            pure (first :: rest) := by
        cases rule <;> first | exact absurd rfl hr | rfl
      rw [hc]
      refine (shows_condition hn (shows_of_formed hn)).leads fun first => ?_
      refine (h.branch a).bind fun rest b => leads_pure ?_
      intro hrest hfirst ha
      obtain ⟨rfl, -, hscoped⟩ := hrest ha
      have hblock : first.isA .block = false :=
        hfirst.2.isBlock_eq.trans (by simp [Tree.isA, Tree.rule?, hr])
      refine ⟨rfl, fun d => emits_ofNode hfirst.2.retells.isNode hfirst.1, ?_⟩
      rwa [blockOf_cons hblock]
  branches a := by
    have other : rule ≠ .block → rule ≠ .elifBlock → rule ≠ .elseBlock →
        Leads a (condition e (.node rule line inner) >>= fun first => Check.branches e ps >>= fun rest =>
          pure (first :: rest)) fun ps' b => Inside a →
            b = a ∧ (∀ d, Emits (e.Knows a) (Value.ofNode d ps')) ∧
              Scoped e.features.globals (e.Knows a) (Script.blockOf ps') ∧
              Scoped e.features.globals (e.Knows a) (ps'.filter (isOneOf (continuations .ifBlock))) := by
      intro hblock helif helse
      refine (shows_condition hn (shows_of_formed hn)).leads fun first => ?_
      refine (h.branches a).bind fun rest b => leads_pure ?_
      intro hrest hfirst ha
      obtain ⟨rfl, -, hscoped, hbranches⟩ := hrest ha
      have hno : ∀ r, r.stays = true → rule ≠ r → first.isA r = false := fun r hs hr =>
        (hfirst.2.retells.isA_eq hs).trans (by simp [Tree.isA, Tree.rule?, hr])
      have hone : isOneOf (continuations .ifBlock) first = false := by
        simp [isOneOf, continuations, hno .elifBlock rfl helif, hno .elseBlock rfl helse]
      refine ⟨rfl, fun d => emits_ofNode hfirst.2.retells.isNode hfirst.1, ?_, ?_⟩
      · rwa [blockOf_cons (hno .block rfl hblock)]
      · rwa [List.filter_cons_of_neg (by simp [hone])]
    cases rule with
    | block =>
      unfold Check.branches
      refine (leads_block (ht.row e) (statements_of_block hn)).bind fun body b => ?_
      refine (h.branches b).bind fun rest c => leads_pure ?_
      intro hrest hbody ha
      obtain ⟨rfl, hscoped⟩ := hbody ha
      obtain ⟨rfl, -, -, hbranches⟩ := hrest ha
      exact ⟨rfl, fun _ => Value.emits_error, hscoped, hbranches⟩
    | elifBlock =>
      unfold Check.branches
      refine ((ht.row e).branch a).bind fun inside b => (h.branches b).bind fun rest c => leads_pure ?_
      intro hrest hinside ha
      obtain ⟨rfl, hemits, hblock⟩ := hinside ha
      obtain ⟨rfl, -, hscoped, hbranches⟩ := hrest ha
      refine ⟨rfl, fun _ => Value.emits_error, hscoped, ?_⟩
      have hstands : Stands e.features.globals (e.Knows c) (e.Knows c) (.node .elifBlock line inside) :=
        Script.stands_conditioned (.inr (.inl rfl)) hemits hblock (Script.scoped_noBranches rfl) fun _ => id
      exact hstands.cons hbranches
    | elseBlock =>
      unfold Check.branches
      refine (((ht.row e).blockOf a).also ((checksAll_of_formed hn).bodies.blockOf e)).bind fun body b => ?_
      refine (h.branches b).bind fun rest c => leads_pure ?_
      rintro hrest ⟨hbody, hfound⟩ ha
      obtain ⟨rfl, hinside⟩ := hbody ha
      obtain ⟨rfl, -, hscoped, hbranches⟩ := hrest ha
      refine ⟨rfl, fun _ => Value.emits_error, hscoped, ?_⟩
      rw [← hfound.blockOf_put] at hinside
      have hstands : Stands e.features.globals (e.Knows c) (e.Knows c)
          (.node .elseBlock line (Tree.putFirst .block body inner)) :=
        Script.stands_bare (.inl rfl) hinside (Script.scoped_noBranches rfl) fun _ => id
      exact hstands.cons hbranches
    | _ => exact other (by simp) (by simp) (by simp)
  handlers a := by
    have other : rule ≠ .block → rule ≠ .catchBlock → rule ≠ .finallyBlock →
        Leads a (Check.handlers e ps >>= fun rest => pure (Tree.node rule line inner :: rest))
          fun ps' b => Inside a → b = a ∧ Scoped e.features.globals (e.Knows a) (Script.blockOf ps') ∧
            Scoped e.features.globals (e.Knows a) (ps'.filter (isOneOf (continuations .tryBlock))) := by
      intro hblock hcatch hfinally
      refine (h.handlers a).bind fun rest b => leads_pure ?_
      intro hrest ha
      obtain ⟨rfl, hscoped, hbranches⟩ := hrest ha
      refine ⟨rfl, ?_, ?_⟩
      · rwa [blockOf_cons (by simp [Tree.isA, Tree.rule?, hblock])]
      · rwa [List.filter_cons_of_neg
          (by simp [isOneOf, continuations, Tree.isA, Tree.rule?, hcatch, hfinally])]
    cases rule with
    | block =>
      unfold Check.handlers
      refine (leads_block (ht.row e) (statements_of_block hn)).bind fun body b => ?_
      refine (h.handlers b).bind fun rest c => leads_pure ?_
      intro hrest hbody ha
      obtain ⟨rfl, hscoped⟩ := hbody ha
      obtain ⟨rfl, -, hbranches⟩ := hrest ha
      exact ⟨rfl, hscoped, hbranches⟩
    | catchBlock =>
      have hc : Check.handlers e (.node .catchBlock line inner :: ps) =
          (push >>= fun _ => declareOutput (.node .catchBlock line inner) .anyObject >>= fun _ =>
            Check.bodyOf e inner >>= fun body => pop >>= fun _ =>
              pure (Tree.node .catchBlock line (Tree.putFirst .block body inner))) >>= fun first =>
            Check.handlers e ps >>= fun rest => pure (first :: rest) := by
        conv => lhs; unfold Check.handlers
        simp only [bind_assoc, pure_bind]
      have hrow : RowLeads e inner := ht.row e
      rw [hc]
      refine (leads_opened (fun b => leads_declareOutput) hrow
        ((checksAll_of_formed hn).bodies.bodyOf e)).bind fun first b => ?_
      refine (h.handlers b).bind fun rest c => leads_pure ?_
      intro hrest hfirst ha
      obtain ⟨rfl, body, rfl, hfound, hinside⟩ := hfirst ha
      obtain ⟨rfl, hscoped, hbranches⟩ := hrest ha
      refine ⟨rfl, hscoped, ?_⟩
      have hout := hfound.outputNames_put rfl (by simp)
      rw [← hfound.blockOf_put] at hinside
      have hstands : Stands e.features.globals (e.Knows c) (e.Knows c)
          (.node .catchBlock line (Tree.putFirst .block body inner)) := by
        refine Script.stands_catchBlock (hinside.mono fun n hn => ?_) fun _ => id
        rw [hout]
        exact hn
      exact hstands.cons hbranches
    | finallyBlock =>
      unfold Check.handlers
      refine (((ht.row e).blockOf a).also ((checksAll_of_formed hn).bodies.blockOf e)).bind fun body b => ?_
      refine (h.handlers b).bind fun rest c => leads_pure ?_
      rintro hrest ⟨hbody, hfound⟩ ha
      obtain ⟨rfl, hinside⟩ := hbody ha
      obtain ⟨rfl, hscoped, hbranches⟩ := hrest ha
      refine ⟨rfl, hscoped, ?_⟩
      rw [← hfound.blockOf_put] at hinside
      have hstands : Stands e.features.globals (e.Knows c) (e.Knows c)
          (.node .finallyBlock line (Tree.putFirst .block body inner)) :=
        Script.stands_bare (.inr (.inr (.inl rfl))) hinside (Script.scoped_noBranches rfl) fun _ => id
      exact hstands.cons hbranches
    | _ => exact other (by simp) (by simp) (by simp)

theorem RowLeads.of (hf : ∀ p ∈ ps, Formed Token.Sound g .plain p) (h : ∀ p ∈ ps, TreeLeads p) :
    RowLeads e ps :=
  Tree.byRow (fun p hp => And.intro (hf p hp) (h p hp)) .nil .token fun hp => .node hp.1 hp.2

/-! ## Statements without blocks -/

/-- Such statements have no blocks among their parts. -/
theorem noBlock_of_formed (hf : Formed Token.Sound g .plain (.node rule line ps))
    (hr : rule ∈ [.functionCall, .expressionStatement, .returnStatement, .throwStatement,
      .breakStatement, .continueStatement, .importStatement]) : Script.blockOf ps = [] := by
  cases hf with
  | node content own parts =>
    have hskip : ∀ {u : Token} {ps : List Tree}, Script.blockOf (.token u :: ps) = Script.blockOf ps :=
      blockOf_cons rfl
    cases content
    case functionCall given closing named arguments =>
      rw [hskip, hskip, blockOf_cons (Tree.isA_ne arguments nofun), hskip]
      rfl
    case expressionStatement v value =>
      rw [blockOf_cons (Tree.fits_isA value ⟨rfl, rfl⟩)]
      rfl
    case returnValue v value | throwValue v value =>
      rw [hskip, blockOf_cons (Tree.fits_isA value ⟨rfl, rfl⟩)]
      rfl
    case importFile value named =>
      rw [hskip, blockOf_cons (Tree.fits_isA value ⟨rfl, rfl⟩)]
      rfl
    all_goals first | rfl | exact absurd hr (by decide)

/-- A statement that is a value. -/
theorem leads_valueStatement (hr : rule = .functionCall ∨ rule = .expressionStatement)
    (hf : Formed Token.Sound g .plain (.node rule line ps)) :
    Leads a (value e (.node rule line ps) >>= fun out => pure out.1) (Settles e a) := by
  refine (((shows_of_formed hf).value a).also ((checks_of_formed hf).value e)).leads fun out =>
    leads_pure ?_
  rintro ⟨⟨hemits, hfills⟩, hretold, -⟩ ha
  refine ⟨.refl ha.opened, ?_⟩
  obtain ⟨t', ty⟩ := out
  have hformed := hretold.formed
  rcases hr with rfl | rfl
  · cases hretold.retells with
    | same => exact Script.stands_functionCall (noBlock_of_formed hformed (by simp)) hfills fun _ => id
  · cases hretold.retells with
    | same => exact Script.stands_expressionStatement (noBlock_of_formed hformed (by simp)) hemits fun _ => id

/-- A row without nodes has no values. -/
theorem ofFirst_noNodes (h : (ps.filter Tree.isNode)[0]? = none) (n : Nat) :
    Value.ofFirst n ps = .ok [] := by
  induction ps with
  | nil => cases n <;> rfl
  | cons p ps ih =>
    cases p with
    | token u => cases n <;> exact ih h
    | node r l inner => simp [Tree.isNode, List.filter_cons] at h

theorem emitsAll_putNode {t' : Tree} (h : (ps.filter Tree.isNode)[0]? = some t) (hn : t'.isNode = true)
    (he : Emits known (Value.ofTree t')) :
    EmitsAll known (Value.ofFirst 1 (Tree.putNode (some t') 0 ps)) := by
  induction ps with
  | nil => cases h
  | cons p ps ih =>
    cases p with
    | token u => exact ih h
    | node r l inner =>
      cases t' with
      | token u => cases hn
      | node r' l' inner' =>
        have hrow : Value.ofFirst 1 (.node r' l' inner' :: ps) =
            (do return (← Value.ofTree (.node r' l' inner')) :: (← Value.ofFirst 0 ps)) := rfl
        have hput : Tree.putNode (some (.node r' l' inner')) 0 (.node r l inner :: ps) =
            .node r' l' inner' :: ps := rfl
        rw [hput, hrow, Value.ofFirst_zero]
        exact he.cons Value.emitsAll_nil

/-- What is evaluated in front of a row reads only known names. -/
theorem shows_nodeValue (hf : ∀ p ∈ ps, Formed Token.Sound g .plain p) :
    Shows a (nodeValue e 0 ps) fun out =>
      EmitsAll (e.Knows a) (Value.ofFirst 1 (Tree.putNode out.1 0 ps)) := by
  unfold nodeValue
  split
  · rename_i hnone
    refine shows_pure ?_
    have hput : Tree.putNode none 0 ps = ps := by cases ps <;> rfl
    rw [hput, ofFirst_noNodes hnone]
    exact Value.emitsAll_nil
  · rename_i t ht
    have hmem := List.mem_filter.1 (List.mem_of_getElem? ht)
    have hform := hf t hmem.1
    refine (((shows_of_formed hform).value a).also ((checks_of_formed hform).value e)).bind fun out =>
      shows_pure ?_
    rintro ⟨⟨hemits, -⟩, hretold, -⟩
    exact emitsAll_putNode ht (hretold.retells.isNode.trans hmem.2) hemits

/-- A `return` or a `throw`, whose value is checked. -/
theorem stands_ended {value : Option Tree} (hr : rule = .returnStatement ∨ rule = .throwStatement)
    (hf : Formed Token.Sound g .plain (.node rule line ps)) (hv : FoundAt g 0 ps value)
    (he : EmitsAll known (Value.ofFirst 1 (Tree.putNode value 0 ps))) {globals : Bool} :
    Stands globals known known (.node rule line (Tree.putNode value 0 ps)) := by
  have hform : Formed Token.Sound g .plain (.node rule line (Tree.putNode value 0 ps)) := by
    cases hf with
    | node content own parts => exact (Retold.node (.node content own parts) (hv.put parts)).formed
  refine Script.stands_ending hr (noBlock_of_formed hform ?_) he fun _ => id
  rcases hr with rfl | rfl <;> simp

theorem leads_returnStatement (hf : Formed Token.Sound g .plain (.node .returnStatement line ps)) :
    Leads a (statement e (.node .returnStatement line ps)) (Settles e a) := by
  have parts : ∀ p ∈ ps, Formed Token.Sound g .plain p := by
    cases hf with
    | node content own parts => exact parts
  have done : ∀ given : Option Tree, Leads a (pure (Tree.node .returnStatement line (Tree.putNode given 0 ps)))
      fun t' b => (EmitsAll (e.Knows a) (Value.ofFirst 1 (Tree.putNode given 0 ps)) ∧ FoundAt g 0 ps given) →
        Settles e a t' b := fun given =>
    leads_pure fun h ha => ⟨.refl ha.opened, stands_ended (.inl rfl) hf h.2 h.1⟩
  unfold statement returned
  simp only [bind_assoc]
  refine ((shows_nodeValue parts).also (ensures_nodeValue parts)).leads fun out => ?_
  split
  · split
    · simp only [bind_assoc, pure_bind]
      exact Reports.leads (r := none) (reports_report rfl) fun _ => done out.1
    · exact done out.1
  · exact done out.1

theorem leads_throwStatement (hf : Formed Token.Sound g .plain (.node .throwStatement line ps)) :
    Leads a (statement e (.node .throwStatement line ps)) (Settles e a) := by
  have parts : ∀ p ∈ ps, Formed Token.Sound g .plain p := by
    cases hf with
    | node content own parts => exact parts
  unfold statement
  refine ((shows_nodeValue parts).also (ensures_nodeValue parts)).leads fun out => leads_pure ?_
  rintro ⟨hemits, hfound⟩ ha
  exact ⟨.refl ha.opened, stands_ended (.inr rfl) hf hfound hemits⟩

theorem leads_importStatement (hf : Formed Token.Sound g .plain (.node .importStatement line ps)) :
    Leads a (statement e (.node .importStatement line ps)) (Settles e a) := by
  have hblock := noBlock_of_formed hf (by simp)
  unfold statement
  split
  · exact leads_pure fun ha => ⟨.refl ha.opened, Script.stands_importStatement hblock fun n hn => .inl hn⟩
  · rename_i name hname
    refine leads_declare.bind fun _ b => leads_pure ?_
    intro hgains ha
    refine ⟨hgains.above ha.opened, Script.stands_importStatement hblock fun n hn => ?_⟩
    refine (hgains.known e n hn).imp_right fun hn => ?_
    obtain rfl := List.mem_singleton.1 hn
    exact congrArg (Option.map (·.literal)) hname

/-- An assignment to a part of a variable reads it; any other declares what is not known yet. -/
theorem leads_assigned {root sign : Token} {fs : List Tree} {own tline : Option Coord} {v : Tree}
    (ht : Formed Token.Sound g .plain (.node .path tline (.token root :: fs)))
    (hv : Formed Token.Sound g .plain v) (hn : v.isNode = true) (hb : v.isA .block = false) :
    Leads a (assignment e t [.node .path tline (.token root :: fs), .token sign, v]) fun ps' b =>
      Settles e a (.node .assignment own ps') b := by
  have hfirst : nodeValue e 1 [.node .path tline (.token root :: fs), .token sign, v] =
      value e v >>= fun out => pure (some out.1, out.2) := by
    cases v with
    | token u => cases hn
    | node r l inner => rfl
  unfold assignment
  rw [hfirst]
  simp only [bind_assoc, pure_bind]
  refine (((shows_of_formed hv).value a).also ((checks_of_formed hv).value e)).leads fun out => ?_
  have hput : Tree.putNode (some out.1) 1 [.node .path tline (.token root :: fs), .token sign, v] =
      [.node .path tline (.token root :: fs), .token sign, out.1] := by
    cases v with
    | token u => cases hn
    | node r l inner => rfl
  have hroot : (Tree.node .path tline (.token root :: fs)).firstToken? = some root := rfl
  simp only [hput, List.find?_cons, Tree.isNode, hroot]
  have hv' : Retold g v out.1 → out.1.isNode = true ∧ out.1.isA .block = false := fun h =>
    ⟨h.retells.isNode.trans hn, h.isBlock_eq.trans hb⟩
  split
  · refine (((shows_of_formed ht).value a).also ((checks_of_formed ht).value e)).leads fun path => ?_
    refine Reports.leads (r := none) reports_assignable fun _ => leads_pure ?_
    rintro ⟨⟨hpath, -⟩, hretold, -⟩ ⟨⟨-, hfills⟩, hsource, -⟩ ha
    obtain ⟨path, ty⟩ := path
    cases hretold.retells with
    | same => exact ⟨.refl ha.opened, Script.stands_assigning (hv' hsource).1 (hv' hsource).2 hfills hpath fun _ => id⟩
  · rename_i hwhole
    obtain rfl : fs = [] := by
      cases ht with
      | node content own parts =>
        cases content with
        | path kind each =>
          refine List.eq_nil_iff_forall_not_mem.2 fun p hp => hwhole ?_
          exact List.any_eq_true.2 ⟨p, List.mem_cons_of_mem _ hp, each p hp⟩
    refine shows_lookup.leads fun found => ?_
    split
    · refine Reports.leads (r := none) reports_assignable fun _ => leads_pure ?_
      rintro - ⟨⟨-, hfills⟩, hsource, -⟩ ha
      exact ⟨.refl ha.opened,
        Script.stands_declaring (hv' hsource).1 (hv' hsource).2 hfills fun _ => .inl⟩
    · refine leads_declare.bind fun _ b => leads_pure ?_
      rintro hgains - ⟨⟨-, hfills⟩, hsource, -⟩ ha
      refine ⟨hgains.above ha.opened,
        Script.stands_declaring (hv' hsource).1 (hv' hsource).2 hfills fun n hn => ?_⟩
      exact (hgains.known e n hn).imp_right List.mem_singleton.1

theorem leads_assignment (hf : Formed Token.Sound g .plain (.node .assignment line ps)) :
    Leads a (statement e (.node .assignment line ps)) (Settles e a) := by
  cases hf with
  | node content own parts =>
    cases content with
    | @assignment _ target sign v path given =>
      obtain ⟨tline, tps, rfl⟩ := Tree.isA_iff.1 path
      have hv : v.isNode = true ∧ v.isA .block = false := by
        cases v with
        | token u => simp [Tree.fits, Tree.isCall, Tree.rule?] at given
        | node r l inner =>
          refine ⟨rfl, ?_⟩
          have hr : r ≠ .block := by
            rintro rfl
            simp [Tree.fits, Tree.isCall, Tree.rule?, Rule.isValue, Rule.isCall] at given
          simp [Tree.isA, Tree.rule?, hr]
      have htarget := parts (.node .path tline tps) (by simp)
      have hpath := htarget
      cases hpath with
      | node inside _ _ =>
        cases inside with
        | path kind each =>
          unfold statement
          exact (leads_assigned htarget (parts v (by simp)) hv.1 hv.2).bind fun ps' b => leads_pure id

/-! ## Statements with blocks -/

/-- A call in a list of statements: its outputs are declared, and then its block is checked. -/
theorem leads_call (hc : rule = .serviceCall ∨ rule = .mutation)
    (hf : Formed Token.Sound g .plain (.node rule line ps)) (h : RowLeads e ps) :
    Leads a (statement e (.node rule line ps)) (Settles e a) := by
  rw [statement_call hc]
  refine (((shows_of_formed hf).value a).also ((checks_of_formed hf).value e)).leads fun out => ?_
  refine leads_declareOutput.bind fun _ b => ?_
  refine ((h.blockOf b).also ((checksAll_of_formed hf).bodies.blockOf e)).bind fun body c => ?_
  obtain ⟨t', ty⟩ := out
  cases t' with
  | token u =>
    refine leads_pure ?_
    rintro - - ⟨-, hretold, -⟩
    cases hretold.retells
  | node rule' line' ps' =>
    refine leads_pure ?_
    rintro ⟨hbody, hfound⟩ hgains ⟨⟨-, hfills⟩, hretold, hkept⟩ ha
    have hc' : rule' = .serviceCall ∨ rule' = .mutation := by
      cases hretold.retells with
      | same => exact hc
      | call => exact .inr rfl
    have hfound : Found g .block ps' body := by
      refine Found.after hfound (hkept ?_)
      rcases hc with rfl | rfl <;> rfl
    have hover := hgains.above ha.opened
    obtain ⟨rfl, hscoped⟩ := hbody (ha.over hover)
    have hout := hfound.outputNames_put rfl (by simp)
    refine ⟨hover, Script.stands_call hc' (fun r r' hr => ?_) ?_ ?_⟩
    · rw [hfound.fill_put hretold.formed hc'] at hr
      exact hfills r r' hr
    · rw [hfound.blockOf_put, hout]
      exact hscoped.mono (hgains.known e)
    · rw [hout]
      exact hgains.known e

theorem leads_ifBlock (h : RowLeads e ps) :
    Leads a (statement e (.node .ifBlock line ps)) (Settles e a) := by
  unfold statement
  refine (h.branches a).bind fun ps' b => leads_pure ?_
  intro hrow ha
  obtain ⟨rfl, hemits, hscoped, hbranches⟩ := hrow ha
  exact ⟨.refl ha.opened, Script.stands_conditioned (.inl rfl) hemits hscoped hbranches fun _ => id⟩

theorem leads_tryBlock (h : RowLeads e ps) :
    Leads a (statement e (.node .tryBlock line ps)) (Settles e a) := by
  unfold statement
  refine (h.handlers a).bind fun ps' b => leads_pure ?_
  intro hrow ha
  obtain ⟨rfl, hscoped, hbranches⟩ := hrow ha
  exact ⟨.refl ha.opened, Script.stands_bare (.inr (.inl rfl)) hscoped hbranches fun _ => id⟩

theorem leads_whileBlock (hf : Formed Token.Sound g .plain (.node .whileBlock line ps)) (h : RowLeads e ps) :
    Leads a (statement e (.node .whileBlock line ps)) (Settles e a) := by
  have hfound : Ensures e.registry (blockOf e ps) (Found g .block ps) :=
    (checksAll_of_formed hf).bodies.blockOf e
  cases hf with
  | node content own parts =>
    cases content with
    | @whileBlock _ word head body suits block =>
      have hhead : head.isA .block = false := Tree.fits_isA suits ⟨rfl, rfl⟩
      obtain ⟨r, l, inner, rfl, -⟩ := Tree.fits_iff.1 suits
      have hcond := parts (.node r l inner) (by simp)
      have hnode : [Tree.token word, .node r l inner, body].find? Tree.isNode = some (.node r l inner) := rfl
      unfold statement
      simp only [hnode, map_eq_pure_bind, bind_assoc, pure_bind]
      refine (shows_condition hcond (shows_of_formed hcond)).leads fun first => ?_
      refine ((h.blockOf a).also hfound).bind fun made b => leads_pure ?_
      rintro ⟨hbody, hmade⟩ ⟨hemits, hretold⟩ ha
      obtain ⟨rfl, hscoped⟩ := hbody ha
      have hfirst := hretold.isBlock_eq.trans hhead
      have hput : Tree.putNode (some first) 0 [.token word, .node r l inner, body] =
          [.token word, first, body] := rfl
      rw [hput]
      have hmade : Found g .block [.token word, first, body] made :=
        hmade.after (by simp only [List.find?_cons, hfirst, hhead])
      refine ⟨.refl ha.opened, Script.stands_conditioned (.inr (.inr rfl)) (fun d => ?_) ?_
        (Script.scoped_noBranches rfl) fun _ => id⟩
      · rw [putFirst_cons rfl, putFirst_cons hfirst]
        change Emits _ (Value.ofNode d (first :: _))
        exact emits_ofNode hretold.retells.isNode hemits
      · rwa [hmade.blockOf_put]

theorem leads_foreachBlock (hf : Formed Token.Sound g .plain (.node .foreachBlock line ps)) (h : RowLeads e ps) :
    Leads a (statement e (.node .foreachBlock line ps)) (Settles e a) := by
  have hfound : Ensures e.registry (bodyOf e ps) (Found g .block ps) :=
    (checksAll_of_formed hf).bodies.bodyOf e
  cases hf with
  | node content own parts =>
    cases content with
    | @foreachBlock _ word source names body suits output block =>
      have hblock : source.isA .block = false := Tree.fits_isA suits ⟨rfl, rfl⟩
      have houtput : source.isA .output = false := Tree.fits_isA suits ⟨rfl, rfl⟩
      obtain ⟨r, l, inner, rfl, -⟩ := Tree.fits_iff.1 suits
      have hsource := parts (.node r l inner) (by simp)
      have hfirst : nodeValue e 0 [.token word, .node r l inner, names, body] =
          value e (.node r l inner) >>= fun out => pure (some out.1, out.2) := rfl
      unfold statement
      rw [hfirst]
      simp only [bind_assoc, pure_bind]
      refine (((shows_of_formed hsource).value a).also ((checks_of_formed hsource).value e)).leads fun out => ?_
      refine Reports.leads (r := none) reports_iteratedTypes fun tys => ?_
      refine (leads_opened (fun b => leads_declareAll) h hfound).mono ?_
      rintro t' b hbody ⟨⟨hemits, -⟩, hretold, -⟩ ha
      obtain ⟨rfl, made, rfl, hmade, hscoped⟩ := hbody ha
      have hblock' := hretold.isBlock_eq.trans hblock
      have houtput' := (hretold.retells.isA_eq (r := .output) rfl).trans houtput
      have hput : Tree.putNode (some out.1) 0 [.token word, .node r l inner, names, body] =
          [.token word, out.1, names, body] := rfl
      rw [hput]
      have hmade : Found g .block [.token word, out.1, names, body] made :=
        hmade.after (by simp only [List.find?_cons, hblock, hblock'])
      have hnames : Script.outputNames (Tree.putFirst .block made [.token word, out.1, names, body]) =
          (outputNames [.token word, .node r l inner, names, body]).map (·.literal) := by
        rw [hmade.outputNames_put rfl (by simp), outputNames_eq]
        simp only [outputNames, List.find?_cons, houtput, houtput']
      refine ⟨.refl ha.opened, Script.stands_foreachBlock (fun d => ?_) ?_ fun _ => id⟩
      · rw [putFirst_cons rfl, putFirst_cons hblock']
        change Emits _ (Value.ofNode d (out.1 :: _))
        exact emits_ofNode hretold.retells.isNode hemits
      · rwa [hmade.blockOf_put, hnames]

/-- The parameters that are declared are those that the record of a function has. -/
theorem mem_parameters {ts : List Tree} {vs : List Value} (h : ts.mapM Script.parameter = .ok vs)
    (hn : n ∈ ((ts.filterMap parameter?).map (·.1)).map (·.literal)) : ∃ v, .argument n v ∈ vs := by
  induction ts generalizing vs with
  | nil => cases hn
  | cons t ts ih =>
    rw [List.mapM_cons] at h
    obtain ⟨v, hv, h⟩ := ok_of_bind h
    obtain ⟨rest, hrest, h⟩ := ok_of_bind h
    obtain rfl := Except.ok.inj h
    unfold Script.parameter at hv
    split at hv
    · rename_i name types hname htypes
      obtain rfl := Except.ok.inj hv
      have hparameter : parameter? t = some (name, spelledOrAny (t.find? .types)) := by
        simp [parameter?, hname]
      rw [List.filterMap_cons_some hparameter, List.map_cons, List.map_cons, List.mem_cons] at hn
      rcases hn with rfl | hn
      · exact ⟨_, List.mem_cons_self⟩
      · exact (ih hrest hn).imp fun _ => List.mem_cons_of_mem _
    · cases hv

theorem leads_functionBlock (hf : Formed Token.Sound g .plain (.node .functionBlock line ps))
    (h : ∀ e, RowLeads e ps) :
    Leads a (statement e (.node .functionBlock line ps)) (Settles e a) := by
  unfold statement
  split
  · rename_i hnone
    refine leads_pure fun ha => ⟨.refl ha.opened, .of (fun line r hr => ?_) (Script.scoped_noBranches rfl)⟩
    obtain ⟨name, hname, -⟩ := ok_of_bind hr
    have hnone : Script.nameIn? ps = none := congrArg (Option.map Token.literal) hnone
    rw [Tree.parts, hnone] at hname
    cases hname
  · rename_i name hname
    refine leads_push.bind fun _ b => shows_topNumber.leads fun floor => ?_
    dsimp only
    refine (leads_closed leads_declareAll (h _) ((checksAll_of_formed hf).bodies.bodyOf _)).mono ?_
    rintro t' c hbody rfl rfl ha
    obtain ⟨rfl, made, rfl, hmade, hscoped⟩ := hbody ha.push
    have hkept : (Tree.putFirst .block made ps).filter (·.isA .parameter) = ps.filter (·.isA .parameter) :=
      hmade.filter_put rfl fun t ht => Tree.isA_ne ht (by simp)
    refine ⟨.refl ha.opened, Script.stands_functionBlock
      ((((ps.filter (·.isA .parameter)).filterMap parameter?).map (·.1)).map (·.literal))
      (fun vs hvs n hn => ?_) ?_ fun _ => id⟩
    · rw [hkept] at hvs
      exact mem_parameters hvs hn
    · rw [hmade.blockOf_put]
      exact hscoped.mono fun n hn => hn.symm.imp_right (Env.Knows.of_function ha)

theorem leads_whenBlock (hf : Formed Token.Sound g .plain (.node .whenBlock line ps)) (h : RowLeads e ps) :
    Leads a (statement e (.node .whenBlock line ps)) (Settles e a) := by
  have hfound : Ensures e.registry (bodyOf e ps) (Found g .block ps) :=
    (checksAll_of_formed hf).bodies.bodyOf e
  have hrow := shows_of_formed (e := e) hf
  have hgiven : Ensures e.registry (argumentsOf e ps) fun out => Found g .arguments ps out.1 :=
    (checks_of_formed hf).rows.arguments e
  obtain ⟨root, hroot⟩ : ∃ root, (ps.find? (·.isA .path)).bind Tree.firstToken? = some root := by
    cases hf with
    | node content own parts =>
      have named : ∀ {word : Token} {target : Tree} {rest : List Tree}, ps = .token word :: target :: rest →
          target.isA .path = true → ∃ root, (ps.find? (·.isA .path)).bind Tree.firstToken? = some root := by
        rintro word target rest rfl hpath
        rw [List.find?_cons_of_neg (by simp [Tree.isA, Tree.rule?]), List.find?_cons_of_pos hpath]
        exact Option.isSome_iff_exists.1 ((parts target (by simp)).hasToken
          (Tree.isA_ne hpath (by simp)) (Tree.isA_ne hpath (by simp)))
      cases content with
      | whenBlock path arguments block => exact named rfl path
      | whenAs path arguments output block => exact named rfl path
  unfold statement
  refine ((hrow.rows.arguments a).also hgiven).leads fun out => ?_
  rw [hroot]
  refine shows_listening.leads fun ty => ?_
  refine (leads_opened (fun b => leads_declareOutput) h hfound).mono ?_
  rintro t' b hbody - ⟨hemits, hgiven⟩ ha
  obtain ⟨rfl, made, rfl, hmade, hscoped⟩ := hbody ha
  have hmade : Found g .block (Tree.putFirst .arguments out.1 ps) made :=
    hmade.after (hgiven.find?_put .block rfl (by simp))
  refine ⟨.refl ha.opened, Script.stands_whenBlock ?_ ?_ fun _ => id⟩
  · rw [hmade.ofArguments_put rfl (by simp)]
    exact hemits
  · rw [hmade.blockOf_put, hmade.outputNames_put rfl (by simp), hgiven.outputNames_put rfl (by simp)]
    exact hscoped

theorem treeLeads_of_formed (h : Formed Token.Sound g .plain t) : TreeLeads t := by
  induction h with
  | token u => exact ⟨nofun, fun e => .nil⟩
  | @node rule line ps content own parts ih =>
    have hf : Formed Token.Sound g .plain (.node rule line ps) := .node content own parts
    have row : ∀ e, RowLeads e ps := fun e => .of parts ih
    refine ⟨fun hs e a => ?_, row⟩
    cases rule with
    | assignment => exact leads_assignment hf
    | serviceCall => exact leads_call (.inl rfl) hf (row e)
    | mutation => exact leads_call (.inr rfl) hf (row e)
    | functionCall => exact leads_valueStatement (.inl rfl) hf
    | expressionStatement => exact leads_valueStatement (.inr rfl) hf
    | ifBlock => exact leads_ifBlock (row e)
    | tryBlock => exact leads_tryBlock (row e)
    | whileBlock => exact leads_whileBlock hf (row e)
    | foreachBlock => exact leads_foreachBlock hf (row e)
    | functionBlock => exact leads_functionBlock hf row
    | whenBlock => exact leads_whenBlock hf (row e)
    | returnStatement => exact leads_returnStatement hf
    | throwStatement => exact leads_throwStatement hf
    | importStatement => exact leads_importStatement hf
    | breakStatement =>
      refine leads_pure fun ha => ⟨.refl ha.opened, Script.stands_bare (by simp) ?_ (Script.scoped_noBranches rfl) fun _ => id⟩
      rw [noBlock_of_formed hf (by simp)]
      exact .nil
    | continueStatement =>
      refine leads_pure fun ha => ⟨.refl ha.opened, Script.stands_bare (by simp) ?_ (Script.scoped_noBranches rfl) fun _ => id⟩
      rw [noBlock_of_formed hf (by simp)]
      exact .nil
    | _ => simp [Tree.isStatement, Tree.rule?, Rule.isStatement] at hs

/-! ## Stories -/

/-- A story that is checked without errors reads only what is known. -/
theorem story_scoped {features : Features} {registry : Option Registry} {analysis : Analysis}
    (hf : ∀ p ∈ ps, Formed Token.Sound g .plain p) (hs : ∀ p ∈ ps, p.isStatement = true)
    (h : story features registry .empty (.of .start ps) = .ok (t, analysis))
    (hd : ∀ d ∈ analysis.diagnostics, d.isError = false) :
    Scoped features.globals (fun _ => False) t.parts := by
  have hrow : ∀ e, RowLeads e ps := fun e => .of hf fun p hp => treeLeads_of_formed (hf p hp)
  have hleads : Leads (.ofRoot .empty) (tree features registry (.of .start ps)) fun out _ =>
      Scoped features.globals (fun _ => False) out.1.parts := by
    refine Logs.leads (r := none) logs_signatures fun functions => ?_
    refine leads_push.bind fun _ a => ?_
    let e : Env := { features, registry, functions, body := none }
    refine ((hrow e).statements (fun p hp _ => hs p hp) a .open).bind fun ps' b => leads_pure ?_
    rintro hscoped rfl
    have hinside : Inside (Scopes.ofRoot .empty).push := ⟨nofun, fun n => rfl⟩
    refine (hscoped hinside).2.mono fun n hn => ?_
    rcases Env.knows_iff.1 hn.of_push with ⟨s, hs, -⟩ | hn
    · rw [Scopes.ofRoot, List.take_nil] at hs
      cases hs
    · cases hn
  obtain ⟨⟨out, s⟩, hout, h⟩ := ok_of_bind h
  obtain ⟨rfl, rfl⟩ := Prod.mk.inj (Except.ok.inj h)
  exact (hleads _ _ _ rfl hout).2 fun d hd' => hd d (List.mem_reverse.2 hd')

end Check

end StoryLang
