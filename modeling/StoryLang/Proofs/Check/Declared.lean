/-
What is declared again.

Apart from the types of what it declares, what a statement does to the scopes can be read off its
tree: `namings` lists the scopes that the statement enters and leaves and the names that it
declares and assigns to. A check does to the scopes, and to the reports of names that were declared
before, what `Naming.Does` says of each of them in turn. So a declaration is judged by the innermost
scope alone. An assignment never is: it declares a name that is not known, and the innermost scope
is one that its lookup goes through, since the function around it starts no further in.
-/
import StoryLang.Proofs.Check.Again.Value
import StoryLang.Proofs.Check.Outputs

namespace StoryLang

namespace Check

/-! ## Namings -/

/-- What of a state declarations are about. -/
structure Ledger where
  scopes : Scopes
  /-- The reports of names that were declared before, the newest first. -/
  repeats : List Diagnostic

def State.ledger (s : State) : Ledger := ⟨s.scopes, s.reports.filter (·.code = .alreadyDeclared)⟩

/-- A step of what a statement does to names. -/
inductive Naming where
  | enter
  | leave
  | declare (name : Token) (line : Option Coord)
  | assign (name : Token) (line : Option Coord)

/-- The report of a name that was declared before, first as `first`. -/
def repeated (name : Token) (first : Binding) : Diagnostic :=
  (Diagnostic.ofCode .alreadyDeclared [name.literal, first.lineText]).placed name.position

/-- The name is new to the innermost scope and is declared there, with its line if `lined`. -/
def Ledger.Gains (lined : Prop) (name : Token) (line : Option Coord) (l l' : Ledger) : Prop :=
  ∃ ty line' scopes, (lined → line' = line) ∧ l.scopes.declare ⟨name.literal, ty, line'⟩ = .ok scopes ∧
    l' = { l with scopes }

/-- What a naming does. -/
def Naming.Does (lined : Prop) : Naming → Ledger → Ledger → Prop
  | enter, l, l' => l' = { l with scopes := l.scopes.push }
  | leave, l, l' => l' = { l with scopes := l.scopes.dropTop }
  | declare name line, l, l' =>
    match l.scopes.top.get? name.literal with
    | some first => l' = { l with repeats := repeated name first :: l.repeats }
    | none => l.Gains lined name line l'
  | assign name line, l, l' => l' = l ∨ l.Gains lined name line l'

/-- Namings one after the other. -/
inductive Run (lined : Prop) : List Naming → Ledger → Ledger → Prop where
  | nil {l} : Run lined [] l l
  | cons {n ns l l' l''} (does : n.Does lined l l') (rest : Run lined ns l' l'') : Run lined (n :: ns) l l''

variable {α β : Type} {lined : Prop} {n : Naming} {ns ms : List Naming} {l l' l'' : Ledger}

theorem Run.append (h : Run lined ns l l') (h' : Run lined ms l' l'') : Run lined (ns ++ ms) l l'' := by
  induction h with
  | nil => exact h'
  | cons does _ ih => exact .cons does (ih h')

theorem Run.one (h : n.Does lined l l') : Run lined [n] l l' := .cons h .nil

/-- One ledger in front of others. -/
def Ledger.before (l : Ledger) (ledgers : Nat → Ledger) (i : Nat) : Ledger :=
  if i = 0 then l else ledgers (i - 1)

/-- What there is before each naming, and in the end. -/
theorem Run.ledgers (h : Run lined ns l l') : ∃ ledgers : Nat → Ledger, ledgers 0 = l ∧
    ledgers ns.length = l' ∧
    ∀ i (n : Naming), ns[i]? = some n → n.Does lined (ledgers i) (ledgers (i + 1)) := by
  induction h with
  | @nil l => exact ⟨fun _ => l, rfl, rfl, fun i n hn => by simp at hn⟩
  | @cons n ns l l' l'' does rest ih =>
    obtain ⟨ledgers, hfirst, hlast, hdoes⟩ := ih
    refine ⟨l.before ledgers, rfl, hlast, fun i m hm => ?_⟩
    cases i with
    | zero =>
      obtain rfl := Option.some.inj hm
      show n.Does lined l (ledgers 0)
      exact hfirst ▸ does
    | succ i => exact hdoes i m hm

/-- A declaration is judged by the innermost scope. -/
structure Judged (lined : Prop) (name : Token) (line : Option Coord) (l l' : Ledger) : Prop where
  reported_iff : (∃ d, l'.repeats = d :: l.repeats) ↔ (l.scopes.top.get? name.literal).isSome = true
  /-- The report cites the line of the first binding, and every binding stays. -/
  cites : ∀ first, l.scopes.top.get? name.literal = some first →
    l'.repeats = repeated name first :: l.repeats ∧ l'.scopes = l.scopes
  /-- A name that only outer scopes have is declared. -/
  succeeds : l.scopes.top.get? name.literal = none → l'.repeats = l.repeats ∧ l.scopes.Kept l'.scopes ∧
    ∃ ty line', l'.scopes.top.get? name.literal = some ⟨name.literal, ty, line'⟩ ∧ (lined → line' = line)

theorem Naming.Does.judged {name : Token} {line : Option Coord}
    (h : (Naming.declare name line).Does lined l l') : Judged lined name line l l' := by
  cases hfound : l.scopes.top.get? name.literal with
  | some first =>
    simp only [Naming.Does, hfound] at h
    subst h
    refine ⟨⟨fun _ => by simp [hfound], fun _ => ⟨_, rfl⟩⟩, fun first' h' => ?_, fun hnone => ?_⟩
    · obtain rfl := Option.some.inj (hfound.symm.trans h')
      exact ⟨rfl, rfl⟩
    · rw [hfound] at hnone
      cases hnone
  | none =>
    simp only [Naming.Does, hfound] at h
    obtain ⟨ty, line', scopes, hline, hdeclare, rfl⟩ := h
    refine ⟨⟨?_, fun hsome => ?_⟩, fun first hfirst => ?_, fun _ => ?_⟩
    · rintro ⟨d, hd⟩
      simp at hd
    · rw [hfound] at hsome
      cases hsome
    · rw [hfound] at hfirst
      cases hfirst
    · exact ⟨rfl, Scopes.kept_declare hdeclare, ty, line', (Scopes.top_declare hdeclare).2, hline⟩

/-- An assignment is not reported, and every binding stays. -/
theorem Naming.Does.assigned {name : Token} {line : Option Coord}
    (h : (Naming.assign name line).Does lined l l') : l'.repeats = l.repeats ∧ l.scopes.Kept l'.scopes := by
  rcases h with rfl | ⟨ty, line', scopes, -, hdeclare, rfl⟩
  · exact ⟨rfl, .refl _⟩
  · exact ⟨rfl, Scopes.kept_declare hdeclare⟩

/-! ## What a tree names -/

/-- Names that are declared one after the other. -/
def declares (line : Option Coord) (names : List Token) : List Naming := names.map (.declare · line)

/-- The variable that an assignment is to, unless it is to a part of one. -/
def assignedTo? (ps : List Tree) : Option Token :=
  match ps.find? Tree.isNode with
  | none => none
  | some path => if path.parts.any (·.isA .pathFragment) then none else path.firstToken?

/-- The names of the parameters of a function. -/
def parameterNames (ps : List Tree) : List Token :=
  (ps.filter (·.isA .parameter)).filterMap Tree.firstToken?

theorem parameterNames_eq (ps : List Tree) :
    parameterNames ps = ((ps.filter (·.isA .parameter)).filterMap parameter?).map (·.1) := by
  simp [parameterNames, List.map_filterMap, parameter?, Function.comp_def]

mutual

/-- What a statement enters and leaves, declares and assigns to. -/
def namings : Tree → List Naming
  | .token _ => []
  | .node .assignment line ps =>
    (assignedTo? ps).toList.map (.assign · (Tree.line? (.node .assignment line ps)))
  | .node .serviceCall line ps =>
    declares (Tree.line? (.node .serviceCall line ps)) (outputNames ps) ++ namingsOwn ps
  | .node .mutation line ps =>
    declares (Tree.line? (.node .mutation line ps)) (outputNames ps) ++ namingsOwn ps
  | .node .ifBlock _ ps => namingsBranches ps
  | .node .whileBlock _ ps => namingsOwn ps
  | .node .foreachBlock line ps =>
    .enter :: (declares (Tree.line? (.node .foreachBlock line ps)) (outputNames ps) ++ (namingsBody ps ++ [.leave]))
  | .node .tryBlock _ ps => namingsHandlers ps
  | .node .functionBlock line ps =>
    match nameOf? ps with
    | none => []
    | some _ =>
      .enter :: (declares (Tree.line? (.node .functionBlock line ps)) (parameterNames ps) ++
        (namingsBody ps ++ [.leave]))
  | .node .whenBlock line ps =>
    match (ps.find? (·.isA .path)).bind Tree.firstToken? with
    | none => []
    | some _ =>
      .enter :: (declares (Tree.line? (.node .whenBlock line ps)) (outputNames ps) ++ (namingsBody ps ++ [.leave]))
  | .node .importStatement line ps =>
    declares (Tree.line? (.node .importStatement line ps)) (nameOf? ps).toList
  | _ => []

/-- The same of statements one after the other. -/
def namingsAll : List Tree → List Naming
  | [] => []
  | t :: ts => namings t ++ namingsAll ts

/-- Of the first block in a row. -/
def namingsBody : List Tree → List Naming
  | [] => []
  | .node .block _ ps :: _ => namingsAll ps
  | _ :: ts => namingsBody ts

/-- Of the first block in a row, with a scope of its own. -/
def namingsOwn : List Tree → List Naming
  | [] => []
  | .node .block _ ps :: _ => .enter :: (namingsAll ps ++ [.leave])
  | _ :: ts => namingsOwn ts

/-- Of the parts of an `if`. -/
def namingsBranches : List Tree → List Naming
  | [] => []
  | .node .block _ ps :: ts => .enter :: (namingsAll ps ++ [.leave]) ++ namingsBranches ts
  | .node .elifBlock _ ps :: ts => namingsBranch ps ++ namingsBranches ts
  | .node .elseBlock _ ps :: ts => namingsOwn ps ++ namingsBranches ts
  | _ :: ts => namingsBranches ts

/-- Of the parts of an `else if`. -/
def namingsBranch : List Tree → List Naming
  | [] => []
  | .node .block _ ps :: ts => .enter :: (namingsAll ps ++ [.leave]) ++ namingsBranch ts
  | _ :: ts => namingsBranch ts

/-- Of the parts of a `try`. -/
def namingsHandlers : List Tree → List Naming
  | [] => []
  | .node .block _ ps :: ts => .enter :: (namingsAll ps ++ [.leave]) ++ namingsHandlers ts
  | .node .catchBlock line ps :: ts =>
    .enter :: (declares (Tree.line? (.node .catchBlock line ps)) (outputNames ps) ++
      (namingsBody ps ++ .leave :: namingsHandlers ts))
  | .node .finallyBlock _ ps :: ts => namingsOwn ps ++ namingsHandlers ts
  | _ :: ts => namingsHandlers ts

end

/-! ## Checks that name something -/

/-- The check starts with `d` scopes and ends with `d'`, and does what the namings say. -/
def Names (lined : Prop) (d d' : Nat) (ns : List Naming) (x : Check α) : Prop :=
  ∀ s a s', s.scopes.depth = d → x s = .ok (a, s') → s'.scopes.depth = d' ∧ Run lined ns s.ledger s'.ledger

variable {d d' d'' : Nat} {e : Env} {name : Token} {line : Option Coord} {ps : List Tree} {t : Tree}

theorem Names.bind {x : Check α} {f : α → Check β} (h : Names lined d d' ns x)
    (hf : ∀ a, Names lined d' d'' ms (f a)) : Names lined d d'' (ns ++ ms) (x >>= f) := by
  intro s b s' hd hx
  obtain ⟨a, u, hx, hfx⟩ := bind_ok_iff.1 hx
  obtain ⟨hd', hrun⟩ := h s a u hd hx
  obtain ⟨hd'', hrun'⟩ := hf a u b s' hd' hfx
  exact ⟨hd'', hrun.append hrun'⟩

/-- What is given back besides makes no difference. -/
theorem Names.giving {x : Check α} {f : α → β} (h : Names lined d d' ns x) :
    Names lined d d' ns (x >>= fun a => pure (f a)) := by
  intro s b s' hd hx
  obtain ⟨a, u, hxa, hfx⟩ := bind_ok_iff.1 hx
  obtain ⟨-, rfl⟩ := Prod.mk.inj (Except.ok.inj hfx)
  exact h s a u hd hxa

/-- Leaving the scopes as they are, and reporting no second declaration. -/
def still : Reporting fun _ => True where
  rel s t := t.ledger = s.ledger
  trans h h' := h'.trans h
  reported := by
    rintro s t hscopes - ⟨new, hreports, hnew⟩
    have hnone : new.filter (fun d => decide (d.code = .alreadyDeclared)) = [] := by
      refine List.filter_eq_nil_iff.2 fun d hd => ?_
      have hcode := hnew d hd
      simp only [Code.ofUse, Bool.and_eq_true, decide_eq_true_eq] at hcode
      simpa using hcode.2
    rw [State.ledger, State.ledger, hscopes, hreports, List.filter_append, hnone, List.nil_append]
  used _ := rfl

theorem Keeps.names {x : Check α} (h : Keeps still x) : Names lined d d [] x := by
  intro s a s' hd hx
  have hledger : s'.ledger = s.ledger := h s a s' hx
  rw [hledger]
  exact ⟨(congrArg (·.scopes.depth) hledger).trans hd, .nil⟩

/-- What names nothing, before the rest. -/
theorem Keeps.naming {x : Check α} {f : α → Check β} (h : Keeps still x)
    (hf : ∀ a, Names lined d d' ns (f a)) : Names lined d d' ns (x >>= f) :=
  Names.bind h.names hf

/-- The same if something is known of what is given. -/
theorem Keeps.namingAs {x : Check α} {f : α → Check β} {P : α → Prop} (h : Keeps still x) (hg : Gives P x)
    (hf : ∀ a, P a → Names lined d d' ns (f a)) : Names lined d d' ns (x >>= f) := by
  intro s b s' hd hx
  obtain ⟨a, u, hxa, hfx⟩ := bind_ok_iff.1 hx
  obtain ⟨hd', hrun⟩ : u.scopes.depth = d ∧ Run lined [] s.ledger u.ledger := h.names s a u hd hxa
  obtain ⟨hd'', hrun'⟩ := hf a (hg s a u hxa) u b s' hd' hfx
  exact ⟨hd'', hrun.append hrun'⟩

/-- What only reports, before the rest. -/
theorem Reports.naming {x : Check α} {f : α → Check β} (h : Reports none x)
    (hf : ∀ a, Names lined d d' ns (f a)) : Names lined d d' ns (x >>= f) :=
  Keeps.naming h.keeps hf

theorem names_pure {a : α} : Names lined d d [] (pure a) := Keeps.names keeps_pure

theorem names_push : Names lined d (d + 1) [.enter] push := by
  rintro s _ _ rfl hx
  obtain ⟨-, rfl⟩ := Prod.mk.inj (Except.ok.inj hx)
  exact ⟨rfl, .one rfl⟩

theorem names_pop : Names lined (d + 2) (d + 1) [.leave] pop := by
  rintro s _ _ hd hx
  obtain ⟨-, rfl⟩ := Prod.mk.inj (Except.ok.inj hx)
  refine ⟨?_, .one rfl⟩
  simp only [Scopes.depth, Scopes.dropTop, List.length_tail] at hd ⊢
  omega

theorem names_declare {line' : Option Coord} {ty : Ty} (hline : lined → line' = line) :
    Names lined d d [.declare name line] (declare name.literal ty line' name.position) := by
  intro s a s' hd hx
  unfold declare at hx
  split at hx
  · rename_i scopes hscopes
    obtain ⟨-, rfl⟩ := Prod.mk.inj (Except.ok.inj hx)
    refine ⟨?_, .one ?_⟩
    · have hlength := (Scopes.kept_declare hscopes).inner.length_eq
      simp only [Scopes.depth] at hd ⊢
      omega
    · have hnone : s.scopes.top.get? name.literal = none := (Scopes.top_declare hscopes).1
      simp only [Naming.Does, State.ledger, hnone]
      exact ⟨ty, line', scopes, hline, hscopes, rfl⟩
  · rename_i existing hexisting
    obtain ⟨-, rfl⟩ := Prod.mk.inj (Except.ok.inj hx)
    have hsome : s.scopes.top.get? name.literal = some existing := Scopes.top_declare_error hexisting
    refine ⟨hd, .one ?_⟩
    simp only [Naming.Does, State.ledger, hsome]
    rfl

theorem names_declareAll {line' : Option Coord} (hline : lined → line' = line) {names : List Token} :
    ∀ tys, Names lined d d (declares line names) (declareAll line' names tys) := by
  induction names with
  | nil => exact fun _ => names_pure
  | cons name names ih => exact fun tys => (names_declare hline).bind fun _ => ih tys.tail

/-- The function around a statement starts in a scope that is there. -/
def Env.OpenedAt (e : Env) (d : Nat) : Prop := ∀ body, e.body = some body → body.floor < d

theorem Env.OpenedAt.succ (h : e.OpenedAt d) : e.OpenedAt (d + 1) := fun body hb => Nat.lt_succ_of_lt (h body hb)

/-- A name that is looked up and not found is new to the innermost scope. -/
theorem names_assigned {ty : Ty} {out : List Tree} (h : e.OpenedAt d) :
    Names lined d d [.assign name line] (do
      match ← lookup e name.literal with
      | some binding => assignable binding.ty ty name.position
      | none => declare name.literal ty line name.position
      return out) := by
  intro s a s' hd hx
  obtain ⟨found, u, hlook, hx⟩ := bind_ok_iff.1 hx
  obtain ⟨rfl, rfl⟩ := Prod.mk.inj (Except.ok.inj (hlook.symm.trans (lookup_eq e name.literal s)))
  cases hfound : e.found u.scopes name.literal with
  | some binding =>
    rw [hfound] at hx
    have hfits : Keeps still (assignable binding.ty ty name.position) := (reports_assignable (r := none)).keeps
    have hledger : s'.ledger = u.ledger := (hfits.bind fun _ => keeps_pure) u a s' hx
    rw [hledger]
    exact ⟨(congrArg (·.scopes.depth) hledger).trans hd, .one (.inl rfl)⟩
  | none =>
    rw [hfound] at hx
    -- the lookup went through the scope on top
    have hnew : u.scopes.top.get? name.literal = none := by
      rw [← Option.not_isSome_iff_eq_none]
      intro hsome
      have hopened : Place.Opened ⟨e, u.scopes⟩ := fun body hb => hd ▸ h body hb
      have hknown : (e.found u.scopes name.literal).isSome = true := hopened.knows hsome
      rw [hfound] at hknown
      cases hknown
    have hdeclare : Names lined d d [.declare name line] (declare name.literal ty line name.position) :=
      names_declare fun _ => rfl
    obtain ⟨hd', hrun⟩ := hdeclare.giving u a s' hd hx
    refine ⟨hd', ?_⟩
    rcases hrun with _ | ⟨does, _ | _⟩
    simp only [Naming.Does, State.ledger, hnew] at does
    exact .one (.inr does)

theorem names_topNumber {f : Nat → Check β} (h : Names lined (d + 1) d' ns (f d)) :
    Names lined (d + 1) d' ns (topNumber >>= f) := by
  intro s a s' hd hx
  obtain ⟨floor, u, hfloor, hx⟩ := bind_ok_iff.1 hx
  obtain ⟨rfl, rfl⟩ := Prod.mk.inj (Except.ok.inj hfloor)
  rw [hd] at hx
  exact h s a s' hd hx

/-! ## Statements -/

/-- The check does what the namings say in any function that starts in a scope that is there. -/
def NamesIn (lined : Prop) (ns : List Naming) (x : Env → Check α) : Prop :=
  ∀ e d, e.OpenedAt (d + 1) → Names lined (d + 1) (d + 1) ns (x e)

/-- So does the check of the statements of a row, whichever way the row is followed. -/
structure BodyNames (lined : Prop) (ps : List Tree) : Prop where
  statements : ∀ flow, NamesIn lined (namingsAll ps) (statements · flow ps)
  bodyOf : NamesIn lined (namingsBody ps) (bodyOf · ps)
  blockOf : NamesIn lined (namingsOwn ps) (blockOf · ps)
  branches : NamesIn lined (namingsBranches ps) (branches · ps)
  branch : NamesIn lined (namingsBranch ps) (branch · ps)
  handlers : NamesIn lined (namingsHandlers ps) (handlers · ps)

structure TreeNames (lined : Prop) (t : Tree) : Prop where
  statement : NamesIn lined (namings t) (statement · t)
  bodies : BodyNames lined t.parts

/-- What is done in a scope of its own. -/
theorem names_inOwnScope {x : Check α} (h : Names lined (d + 2) (d + 2) ns x) :
    Names lined (d + 1) (d + 1) (.enter :: (ns ++ [.leave])) (inOwnScope x) :=
  names_push.bind fun _ => h.bind fun _ => names_pop.giving

/-- What is done in a scope with some names of its own, before the rest. -/
theorem names_scope {line' : Option Coord} {names : List Token} {tys : List Ty} {x : Check α} {f : α → Check β}
    (hline : lined → line' = line) (hx : Names lined (d + 2) (d + 2) ms x)
    (hf : ∀ a, Names lined (d + 1) (d + 1) ns (f a)) :
    Names lined (d + 1) (d + 1) (.enter :: (declares line names ++ (ms ++ .leave :: ns))) (do
      push
      declareAll line' names tys
      let a ← x
      pop
      f a) :=
  names_push.bind fun _ => (names_declareAll hline tys).bind fun _ => hx.bind fun a => names_pop.bind fun _ => hf a

theorem keeps_checkCondition (e : Env) (t : Tree) : Keeps still (condition e t) :=
  keeps_condition (keeps_value still e t)

theorem BodyNames.nil : BodyNames lined [] where
  statements _ _ _ _ := names_pure
  bodyOf _ _ _ := names_pure
  blockOf _ _ _ := names_pure
  branches _ _ _ := names_pure
  branch _ _ _ := names_pure
  handlers _ _ _ := names_pure

theorem BodyNames.token {u : Token} (h : BodyNames lined ps) : BodyNames lined (.token u :: ps) where
  statements flow e d he := by
    simp only [Check.statements, namingsAll, namings, List.nil_append]
    exact (h.statements flow e d he).giving
  bodyOf e d he := by
    simp only [Check.bodyOf, namingsBody]
    exact h.bodyOf e d he
  blockOf e d he := by
    simp only [Check.blockOf, namingsOwn]
    exact h.blockOf e d he
  branches e d he := by
    simp only [Check.branches, namingsBranches]
    exact (h.branches e d he).giving
  branch e d he := by
    simp only [Check.branch, namingsBranch]
    exact (h.branch e d he).giving
  handlers e d he := by
    simp only [Check.handlers, namingsHandlers]
    exact (h.handlers e d he).giving

theorem BodyNames.node {rule : Rule} {inner : List Tree} (ht : TreeNames lined (.node rule line inner))
    (h : BodyNames lined ps) : BodyNames lined (.node rule line inner :: ps) where
  statements flow e d he := by
    simp only [Check.statements, namingsAll]
    refine reports_enter.naming fun flow => (ht.statement e d he).bind fun t => ?_
    exact (h.statements _ e d he).giving
  bodyOf e d he := by
    by_cases hr : rule = .block
    · subst hr
      simp only [Check.bodyOf, namingsBody]
      exact (ht.bodies.statements .open e d he).giving
    · have hother : namingsBody (.node rule line inner :: ps) = namingsBody ps := by
        cases rule <;> first | exact absurd rfl hr | rfl
      simp only [hother, bodyOf_other hr]
      exact h.bodyOf e d he
  blockOf e d he := by
    by_cases hr : rule = .block
    · subst hr
      simp only [Check.blockOf, namingsOwn]
      exact (names_inOwnScope (ht.bodies.statements .open e _ he.succ)).giving
    · have hother : namingsOwn (.node rule line inner :: ps) = namingsOwn ps := by
        cases rule <;> first | exact absurd rfl hr | rfl
      simp only [hother, blockOf_other hr]
      exact h.blockOf e d he
  branches e d he := by
    have other : Names lined (d + 1) (d + 1) (namingsBranches ps)
        (condition e (.node rule line inner) >>= fun first =>
          Check.branches e ps >>= fun rest => pure (first :: rest)) :=
      (keeps_checkCondition e _).naming fun _ => (h.branches e d he).giving
    cases rule with
    | block =>
      simp only [Check.branches, namingsBranches]
      refine (names_inOwnScope (ht.bodies.statements .open e _ he.succ)).bind fun _ => ?_
      exact (h.branches e d he).giving
    | elifBlock =>
      simp only [Check.branches, namingsBranches]
      exact (ht.bodies.branch e d he).bind fun _ => (h.branches e d he).giving
    | elseBlock =>
      simp only [Check.branches, namingsBranches]
      exact (ht.bodies.blockOf e d he).bind fun _ => (h.branches e d he).giving
    | _ => exact other
  branch e d he := by
    have other : Names lined (d + 1) (d + 1) (namingsBranch ps)
        (condition e (.node rule line inner) >>= fun first =>
          Check.branch e ps >>= fun rest => pure (first :: rest)) :=
      (keeps_checkCondition e _).naming fun _ => (h.branch e d he).giving
    cases rule with
    | block =>
      simp only [Check.branch, namingsBranch]
      refine (names_inOwnScope (ht.bodies.statements .open e _ he.succ)).bind fun _ => ?_
      exact (h.branch e d he).giving
    | _ => exact other
  handlers e d he := by
    have other : Names lined (d + 1) (d + 1) (namingsHandlers ps)
        (Check.handlers e ps >>= fun rest => pure (Tree.node rule line inner :: rest)) :=
      (h.handlers e d he).giving
    cases rule with
    | block =>
      simp only [Check.handlers, namingsHandlers]
      refine (names_inOwnScope (ht.bodies.statements .open e _ he.succ)).bind fun _ => ?_
      exact (h.handlers e d he).giving
    | catchBlock =>
      simp only [Check.handlers, namingsHandlers]
      exact names_scope (fun _ => rfl) (ht.bodies.bodyOf e _ he.succ) fun _ => (h.handlers e d he).giving
    | finallyBlock =>
      simp only [Check.handlers, namingsHandlers]
      exact (ht.bodies.blockOf e d he).bind fun _ => (h.handlers e d he).giving
    | _ => exact other

theorem BodyNames.of (h : ∀ p ∈ ps, TreeNames lined p) : BodyNames lined ps :=
  Tree.byRow h .nil .token .node

theorem keeps_arguments (e : Env) (ps : List Tree) : Keeps still (argumentsOf e ps) :=
  (valueKeeps roots_any (.node .whenBlock none ps) trivial).rows.arguments e

/-- An assignment to a variable is one naming, and one to a part of a variable is none. -/
theorem names_assignment {own : Tree} (he : e.OpenedAt d) :
    Names lined d d ((assignedTo? ps).toList.map (.assign · own.line?)) (assignment e own ps) := by
  refine (keeps_nodeValue fun p _ => keeps_value still e p).naming fun out => ?_
  simp only [find?_putNode_succ, assignedTo?]
  cases ps.find? Tree.isNode with
  | none => exact names_pure
  | some path =>
    cases hroot : path.firstToken? with
    | none =>
      simp only [hroot, ite_self]
      exact names_pure
    | some root =>
      simp only [hroot]
      cases hpart : path.parts.any (·.isA .pathFragment) with
      | true =>
        refine (keeps_value still e path).naming fun _ => ?_
        exact reports_assignable.naming fun _ => names_pure
      | false => exact names_assigned he

/-- A call in a list of statements declares its outputs, on the line of the call. -/
theorem names_called {rule : Rule} (hr : rule = .serviceCall ∨ rule = .mutation)
    (hf : lined → ∃ g, Formed Token.Sound g .plain (.node rule line ps)) (hb : NamesIn lined ms (blockOf · ps)) :
    NamesIn lined (declares (Tree.line? (.node rule line ps)) (outputNames ps) ++ ms)
      (statement · (.node rule line ps)) := by
  intro e d he
  simp only [statement_call hr]
  refine (keeps_value still e _).namingAs (P := fun out => outputNames out.1.parts = outputNames ps ∧
    (lined → out.1.line? = Tree.line? (.node rule line ps))) ?_ fun out hout => ?_
  · intro s out s' hx
    obtain ⟨rule', line', ps', ht, -, halike⟩ := gives_called hr s out s' hx
    refine ⟨?_, fun h => ?_⟩
    · rw [ht, Tree.parts, outputNames, outputNames, halike]
    · obtain ⟨g, hf⟩ := hf h
      exact ((stableTree_of_formed hf).value e hx).1.line?
  · obtain ⟨t, ty⟩ := out
    have houtputs : Names lined (d + 1) (d + 1) (declares (Tree.line? (.node rule line ps)) (outputNames ps))
        (declareOutput t ty) := hout.1 ▸ names_declareAll hout.2 [ty]
    refine houtputs.bind fun _ => ?_
    cases t with
    | token u => exact (hb e d he).giving
    | node rule' line' ps' => exact (hb e d he).giving

theorem treeNames (t : Tree) : (lined → ∃ g, Formed Token.Sound g .plain t) → TreeNames lined t := by
  induction t using Tree.byParts with
  | token u => exact fun _ => ⟨fun e d _ => names_pure, .nil⟩
  | node rule line ps ih =>
    intro hf
    have parts : ∀ p ∈ ps, TreeNames lined p := by
      refine fun p hp => ih p hp fun h => ?_
      obtain ⟨g, hf⟩ := hf h
      cases hf with
      | node content own parts => exact ⟨g, parts p hp⟩
    have bodies : BodyNames lined ps := .of parts
    refine ⟨?_, bodies⟩
    cases rule with
    | serviceCall =>
      simp only [namings]
      exact names_called (.inl rfl) hf bodies.blockOf
    | mutation =>
      simp only [namings]
      exact names_called (.inr rfl) hf bodies.blockOf
    | assignment =>
      intro e d he
      simp only [statement, namings]
      exact (names_assignment he).giving
    | functionCall | expressionStatement =>
      intro e d he
      simp only [statement, namings]
      exact (keeps_value still e _).naming fun _ => names_pure
    | ifBlock =>
      intro e d he
      simp only [statement, namings]
      exact (bodies.branches e d he).giving
    | tryBlock =>
      intro e d he
      simp only [statement, namings]
      exact (bodies.handlers e d he).giving
    | whileBlock =>
      intro e d he
      have rest : ∀ first : Option Tree, Names lined (d + 1) (d + 1) (namingsOwn ps) (blockOf e ps >>= fun body =>
          pure (Tree.node .whileBlock line (Tree.putFirst .block body (Tree.putNode first 0 ps)))) :=
        fun first => (bodies.blockOf e d he).giving
      simp only [statement, namings]
      split
      · rw [map_eq_pure_bind]
        simp only [bind_assoc, pure_bind]
        exact (keeps_checkCondition e _).naming fun t => rest (some t)
      · exact Keeps.naming keeps_pure rest
    | foreachBlock =>
      intro e d he
      simp only [statement, namings]
      refine (keeps_nodeValue fun p _ => keeps_value still e p).naming fun out => ?_
      refine reports_iteratedTypes.naming fun tys => ?_
      exact names_scope (fun _ => rfl) (bodies.bodyOf e _ he.succ) fun _ => names_pure
    | functionBlock =>
      intro e d he
      simp only [statement, namings]
      cases nameOf? ps with
      | none => exact names_pure
      | some name =>
        refine names_push.bind fun _ => names_topNumber ?_
        rw [parameterNames_eq]
        refine (names_declareAll (fun _ => rfl) _).bind fun _ => (bodies.bodyOf _ _ ?_).bind fun _ => names_pop.giving
        -- the function starts in the scope that was opened for it
        rintro body ⟨⟩
        exact Nat.lt_succ_self _
    | whenBlock =>
      intro e d he
      simp only [statement, namings]
      refine (keeps_arguments e ps).naming fun out => ?_
      cases (ps.find? (·.isA .path)).bind Tree.firstToken? with
      | none => exact names_pure
      | some root =>
        refine (keeps_listening trivial).naming fun ty => ?_
        exact names_scope (fun _ => rfl) (bodies.bodyOf e _ he.succ) fun _ => names_pure
    | returnStatement =>
      intro e d he
      simp only [statement, namings]
      exact (keeps_returned fun p _ => keeps_value still e p).naming fun _ => names_pure
    | throwStatement =>
      intro e d he
      simp only [statement, namings]
      exact (keeps_nodeValue fun p _ => keeps_value still e p).naming fun _ => names_pure
    | importStatement =>
      intro e d he
      simp only [statement, namings]
      cases nameOf? ps with
      | none => exact names_pure
      | some name => exact (names_declare fun _ => rfl).giving
    | _ => exact fun e d _ => names_pure

/-! ## Stories -/

/-- Checking a story does what its statements name, one naming after the other: what is reported of
names that were declared before is reported of its functions or by a declaration whose name is in
the innermost scope already, on the line of the binding there, which stays. A name that only outer
scopes have is declared. An assignment is not reported and leaves every binding as it is. -/
theorem story_declares {features : Features} {registry : Option Registry} {root : Scope} {rule : Rule}
    {own : Option Coord} {trees : List Tree} {t' : Tree} {analysis : Analysis}
    (h : story features registry root (.node rule own trees) = .ok (t', analysis)) :
    ∃ functions s, signatures (.node rule own trees) { scopes := .ofRoot root, reports := [], services := .empty } =
        .ok (functions, s) ∧
    ∃ ledgers : Nat → Ledger, ledgers 0 = ⟨(Scopes.ofRoot root).push, s.ledger.repeats⟩ ∧
      (ledgers (namingsAll trees).length).scopes.top = analysis.scope ∧
      (ledgers (namingsAll trees).length).repeats.reverse =
        analysis.diagnostics.filter (·.code = .alreadyDeclared) ∧
      ∀ i n, (namingsAll trees)[i]? = some n →
        Naming.Does (∃ g, ∀ p ∈ trees, Formed Token.Sound g .plain p) n (ledgers i) (ledgers (i + 1)) ∧
        match n with
        | .declare name line => Judged (∃ g, ∀ p ∈ trees, Formed Token.Sound g .plain p) name line
            (ledgers i) (ledgers (i + 1))
        | .assign _ _ => (ledgers (i + 1)).repeats = (ledgers i).repeats ∧
            (ledgers i).scopes.Kept (ledgers (i + 1)).scopes
        | _ => (ledgers (i + 1)).repeats = (ledgers i).repeats := by
  obtain ⟨functions, s, ts, s', hscopes, -, hrun, -, hdiagnostics, hscope, hsignatures⟩ := story_run h
  have hdepth : s.scopes.depth = 1 + 1 := by rw [hscopes]; rfl
  have hopened : Env.OpenedAt { features, registry, functions, body := none } (1 + 1) := fun _ hb => by cases hb
  have hnames : BodyNames (∃ g, ∀ p ∈ trees, Formed Token.Sound g .plain p) trees :=
    .of fun p hp => treeNames p fun ⟨g, hf⟩ => ⟨g, hf p hp⟩
  obtain ⟨-, hnamed⟩ := hnames.statements .open _ 1 hopened s ts s' hdepth hrun
  obtain ⟨ledgers, hfirst, hlast, hdoes⟩ := hnamed.ledgers
  refine ⟨functions, _, hsignatures, ledgers, ?_, ?_, ?_, fun i n hn => ⟨hdoes i n hn, ?_⟩⟩
  · rw [hfirst, State.ledger, hscopes]
    rfl
  · exact (congrArg (·.scopes.top) hlast).trans hscope.symm
  · rw [hdiagnostics, List.filter_reverse]
    exact congrArg (fun l : Ledger => l.repeats.reverse) hlast
  · have hdoes := hdoes i n hn
    cases n with
    | enter | leave =>
      simp only [Naming.Does] at hdoes
      rw [hdoes]
    | declare name line => exact hdoes.judged
    | assign name line => exact hdoes.assigned

/-- The first two namings declare the same name. -/
def declaresTwice (name : String) : List Naming → Bool
  | .declare a _ :: .declare b _ :: _ => a.literal = name && b.literal = name
  | _ => false

/-- The second call uses the name of the first, and so does the `foreach`, whose name is no mistake. -/
theorem story_declares_twice : ∃ rule own trees t' analysis,
    (Story.unnamed "a b as x\na b as x\nforeach [1] as x\n    x = 2\n").tree .standard true =
      .ok (.node rule own trees) ∧
    story .off none .empty (.node rule own trees) = .ok (t', analysis) ∧
    analysis.diagnostics.map (·.text) = ["`x` has already been declared at line 1"] ∧
    ∃ (ledgers : Nat → Ledger) (name : Token) (line : Option Coord) (first : Binding),
      (namingsAll trees)[1]? = some (.declare name line) ∧ name.literal = "x" ∧
      (ledgers 1).scopes.top.get? "x" = some first ∧
      (ledgers 2).repeats = repeated name first :: (ledgers 1).repeats := by
  have h : ((Story.unnamed "a b as x\na b as x\nforeach [1] as x\n    x = 2\n").tree .standard true).toOption.any
      (fun t => t.isNode && declaresTwice "x" (namingsAll t.parts) &&
        (story .off none .empty t).toOption.any fun out =>
          out.2.diagnostics.map (·.text) = ["`x` has already been declared at line 1"]) = true := by
    decide +kernel
  obtain ⟨t, ht, h⟩ := (Option.any_eq_true _ _).1 h
  rw [toOption_eq_some] at ht
  obtain ⟨⟨hnode, htwice⟩, hstory⟩ := by simpa only [Bool.and_eq_true] using h
  cases t with
  | token u => cases hnode
  | node rule own trees =>
    obtain ⟨⟨t', analysis⟩, hstory, htexts⟩ := (Option.any_eq_true _ _).1 hstory
    rw [toOption_eq_some] at hstory
    unfold declaresTwice at htwice
    split at htwice
    · rename_i a line b line' rest hnamings
      obtain ⟨ha, hb⟩ : a.literal = "x" ∧ b.literal = "x" := by simpa using htwice
      have hnamings : namingsAll trees = .declare a line :: .declare b line' :: rest := hnamings
      obtain ⟨functions, s, -, ledgers, hfirst, -, -, hdoes⟩ := story_declares hstory
      -- the name is new to the scope of the story, and there after the first call
      obtain ⟨-, hdeclared⟩ := hdoes 0 (.declare a line) (by rw [hnamings]; rfl)
      obtain ⟨-, -, ty, line₀, hx, -⟩ := hdeclared.succeeds (by rw [hfirst]; rfl)
      obtain ⟨-, hrepeated⟩ := hdoes 1 (.declare b line') (by rw [hnamings]; rfl)
      rw [ha] at hx
      refine ⟨rule, own, trees, t', analysis, ht, hstory, by simpa using htexts, ledgers, b, line', _, ?_, hb, hx, ?_⟩
      · rw [hnamings]
        rfl
      · exact (hrepeated.cites _ (by rw [hb]; exact hx)).1
    · cases htwice

end Check

end StoryLang
