/-
What every check does to the state it starts from.

A check reports, notes services, declares names and opens scopes that it closes
again. A relation between the states before and after that each of these keeps
is kept by the check of a whole story. It notes a service only where a path is
called or listened to that starts with its name.
-/
import StoryLang.Proofs.Check.Contract
import StoryLang.Proofs.Tree.Form

namespace StoryLang.Check

variable {α β : Type} {N : String → Prop} {Q : Tree → Prop} {t : Tree} {ps : List Tree}

/-- A relation between the states before and after a check that every step of a check of values
keeps, if it notes only services that are `N`. -/
structure Reporting (N : String → Prop) where
  rel : State → State → Prop
  trans : ∀ {s t u}, rel s t → rel t u → rel s u
  /-- A step that only reports. -/
  reported : ∀ {s t}, t.scopes = s.scopes → t.services = s.services → s.Since Code.ofUse t → rel s t
  used : ∀ {s name}, N name → rel s { s with services := s.services.insert name () }

/-- The same for every step of any check. -/
structure Steps (N : String → Prop) extends Reporting N where
  declared : ∀ {s b scopes}, s.scopes.declare b = .ok scopes → rel s { s with scopes }
  /-- A name that its scope has already is reported. -/
  redeclared : ∀ {s d}, rel s { s with reports := d :: s.reports }
  /-- What is done in a scope of its own. -/
  closed : ∀ {s t}, rel { s with scopes := s.scopes.push } t →
    rel s { t with scopes := t.scopes.dropTop }

variable {S : Reporting N} {T : Steps N}

/-- The states before and after the check are related. -/
def Keeps (S : Reporting N) (x : Check α) : Prop := ∀ s a s', x s = .ok (a, s') → S.rel s s'

/-- A check that is gone on with in a new scope, and leaves it. -/
def Closes (T : Steps N) (x : Check α) : Prop :=
  ∀ s t a t', T.rel { s with scopes := s.scopes.push } t → x t = .ok (a, t') → T.rel s t'

theorem keeps_pure {a : α} : Keeps S (pure a) := by
  rintro s _ _ hx
  obtain ⟨-, rfl⟩ := Prod.mk.inj (Except.ok.inj hx)
  exact S.reported rfl rfl (.refl rfl)

theorem Keeps.bind {x : Check α} {f : α → Check β} (h : Keeps S x) (hf : ∀ a, Keeps S (f a)) :
    Keeps S (x >>= f) := by
  intro s b s' hx
  obtain ⟨a, t, hx, hfx⟩ := bind_ok_iff.1 hx
  exact S.trans (h s a t hx) (hf a t b s' hfx)

theorem Reports.keeps {r : Option Registry} {x : Check α} (h : Reports r x) : Keeps S x := by
  intro s a s' hx
  have h := h s
  rw [hx] at h
  exact S.reported h.1.1 h.1.2 h.2.1

/-- A check that only reports, before the rest. -/
theorem Reports.keeping {x : Check α} {f : α → Check β} (h : Reports none x)
    (hf : ∀ a, Keeps S (f a)) : Keeps S (x >>= f) :=
  Keeps.bind h.keeps hf

theorem keeps_useService {name : String} (h : N name) : Keeps S (useService name) := by
  rintro s _ _ hx
  obtain ⟨-, rfl⟩ := Prod.mk.inj (Except.ok.inj hx)
  exact S.used h

theorem keeps_declare {name : String} {ty : Ty} {line : Option Coord} {place : Position} :
    Keeps T.toReporting (declare name ty line place) := by
  intro s a s' hx
  unfold declare at hx
  split at hx
  · obtain ⟨-, rfl⟩ := Prod.mk.inj (Except.ok.inj hx)
    exact T.declared ‹_›
  · obtain ⟨-, rfl⟩ := Prod.mk.inj (Except.ok.inj hx)
    exact T.redeclared

theorem keeps_declareAll {line : Option Coord} {names : List Token} {tys : List Ty} :
    Keeps T.toReporting (declareAll line names tys) := by
  induction names generalizing tys with
  | nil => exact keeps_pure
  | cons name names ih => exact keeps_declare.bind fun _ => ih

/-! ## Scopes of their own -/

theorem keeps_pushed {f : Unit → Check α} (h : ∀ u, Closes T (f u)) : Keeps T.toReporting (push >>= f) := by
  intro s a s' hx
  obtain ⟨u, t, hpush, hfx⟩ := bind_ok_iff.1 hx
  obtain ⟨-, rfl⟩ := Prod.mk.inj (Except.ok.inj hpush)
  exact h u s _ a s' (T.reported rfl rfl (.refl rfl)) hfx

theorem Keeps.inner {x : Check α} {f : α → Check β} (h : Keeps T.toReporting x) (hf : ∀ a, Closes T (f a)) :
    Closes T (x >>= f) := by
  intro s t b t' ht hx
  obtain ⟨a, u, hx, hfx⟩ := bind_ok_iff.1 hx
  exact hf a s u b t' (T.trans ht (h t a u hx)) hfx

theorem closes_pop {f : Unit → Check α} (h : ∀ u, Keeps T.toReporting (f u)) : Closes T (pop >>= f) := by
  intro s t a t' ht hx
  obtain ⟨u, t'', hpop, hfx⟩ := bind_ok_iff.1 hx
  obtain ⟨-, rfl⟩ := Prod.mk.inj (Except.ok.inj hpop)
  exact T.trans (T.closed ht) (h u _ a t' hfx)

theorem keeps_inOwnScope {x : Check α} (h : Keeps T.toReporting x) : Keeps T.toReporting (inOwnScope x) :=
  keeps_pushed fun _ => h.inner fun _ => closes_pop fun _ => keeps_pure

theorem keeps_commandCall {e : Env} {service : String} {place : Position} {command : Option Token}
    {supplied : List Supplied} (h : N service) :
    Keeps S (commandCall e service place command supplied) := by
  rw [commandCall_eq]
  exact (keeps_useService h).bind fun _ => reports_commanded.keeps

theorem keeps_listening {e : Env} {root : Token} {event : Option Token} {supplied : List Supplied}
    (h : N root.literal) : Keeps S (listening e root event supplied) := by
  rw [listening_eq]
  refine reports_lookup.keeping fun found => ?_
  cases found with
  | some found => exact reports_heard.keeps
  | none => exact (keeps_useService h).bind fun _ => reports_unheard.keeps

/-- What is called and listened to in such trees is `N`. -/
structure Roots (N : String → Prop) (Q : Tree → Prop) : Prop where
  part : ∀ t, Q t → ∀ p ∈ t.parts, Q p
  root : ∀ t, Q t → t.isA .serviceCall = true ∨ t.isA .whenBlock = true → ∀ path ∈ t.parts,
    path.isA .path = true → ∀ u, path.firstToken? = some u → N u.literal

/-! ## Values -/

/-- Checking a row of parts keeps the relation, whichever way the row is followed. -/
structure RowKeeps (S : Reporting N) (ps : List Tree) : Prop where
  firsts : ∀ e n, Keeps S (firsts e n ps)
  entries : ∀ e, Keeps S (entries e ps)
  fragments : ∀ e ty, Keeps S (fragments e ty ps)
  arguments : ∀ e, Keeps S (argumentsOf e ps)
  supplied : ∀ e seen, Keeps S (suppliedBy e seen ps)
  mutation : ∀ e, Keeps S (mutation e ps)
  links : ∀ e ty, Keeps S (links e ty ps)
  call : ∀ e, Keeps S (callAsMutation e ps)

/-- Checking a value and its parts keeps the relation. -/
structure ValueKeeps (S : Reporting N) (t : Tree) : Prop where
  value : ∀ e, Keeps S (value e t)
  rows : RowKeeps S t.parts

theorem RowKeeps.nil : RowKeeps S [] where
  firsts _ n := by cases n <;> exact keeps_pure
  entries _ := keeps_pure
  fragments _ _ := keeps_pure
  arguments _ := keeps_pure
  supplied _ _ := keeps_pure
  mutation _ := keeps_pure
  links _ _ := keeps_pure
  call _ := keeps_pure

theorem RowKeeps.token {u : Token} (h : RowKeeps S ps) : RowKeeps S (.token u :: ps) where
  firsts e n := by
    unfold Check.firsts
    exact (h.firsts e n).bind fun _ => keeps_pure
  entries e := by
    unfold Check.entries
    exact (h.entries e).bind fun _ => keeps_pure
  fragments e ty := by
    unfold Check.fragments
    exact (h.fragments e ty).bind fun _ => keeps_pure
  arguments e := by
    unfold argumentsOf
    exact h.arguments e
  supplied e seen := by
    unfold suppliedBy
    exact (h.supplied e seen).bind fun _ => keeps_pure
  mutation e := by
    unfold Check.mutation
    exact (h.mutation e).bind fun _ => keeps_pure
  links e ty := by
    unfold Check.links
    exact (h.links e ty).bind fun _ => keeps_pure
  call e := by
    unfold callAsMutation
    exact (h.links e .any).bind fun _ => keeps_pure

theorem RowKeeps.node {rule : Rule} {line : Option Coord} {inner : List Tree}
    (ht : ValueKeeps S (.node rule line inner)) (h : RowKeeps S ps) :
    RowKeeps S (.node rule line inner :: ps) where
  firsts e n := by
    cases n with
    | zero => exact keeps_pure
    | succ n =>
      unfold Check.firsts
      exact (ht.value e).bind fun _ => (h.firsts e n).bind fun _ => keeps_pure
  entries e := by
    unfold Check.entries
    exact (ht.rows.firsts e 2).bind fun _ => (h.entries e).bind fun _ => keeps_pure
  fragments e ty := by
    unfold Check.fragments
    have rest : ∀ ty, Keeps S (Check.fragments e ty ps >>= fun out =>
        pure (Tree.node rule line inner :: out.1, out.2)) :=
      fun ty => (h.fragments e ty).bind fun _ => keeps_pure
    split
    · split
      · exact rest ty
      · exact reports_fieldType.keeping rest
    · refine (ht.rows.firsts e 1).bind fun _ => reports_indexType.keeping fun ty => ?_
      exact (h.fragments e ty).bind fun _ => keeps_pure
  arguments e := by
    by_cases hr : rule = .arguments
    · subst hr
      unfold argumentsOf
      exact (ht.rows.supplied e []).bind fun _ => keeps_pure
    · rw [argumentsOf_other hr]
      exact h.arguments e
  supplied e seen := by
    unfold suppliedBy
    split
    · exact (h.supplied e seen).bind fun _ => keeps_pure
    · rename_i name _
      have rest : Keeps S (Check.firsts e 1 inner >>= fun out =>
          suppliedBy e (name.literal :: seen) ps >>= fun others =>
          pure (Tree.node rule line out.1 :: others.1,
            (⟨name.literal, out.2.getD 0 .any, name.position⟩ : Supplied) :: others.2)) :=
        (ht.rows.firsts e 1).bind fun _ => (h.supplied e _).bind fun _ => keeps_pure
      split
      · exact Reports.keeping (reports_report rfl) fun _ => rest
      · exact rest
  mutation e := by
    unfold Check.mutation
    exact (ht.value e).bind fun out => (h.links e out.2).bind fun _ => keeps_pure
  links e ty := by
    by_cases hr : rule = .mutationFragment
    · subst hr
      unfold Check.links
      refine (ht.rows.arguments e).bind fun out => ?_
      refine reports_mutationCall.keeping fun ty => ?_
      exact (h.links e ty).bind fun _ => keeps_pure
    · rw [links_other hr]
      exact (h.links e ty).bind fun _ => keeps_pure
  call e := by
    unfold callAsMutation
    refine (ht.value e).bind fun _ => (h.arguments e).bind fun _ => ?_
    refine reports_mutationCall.keeping fun ty => ?_
    exact (h.links e ty).bind fun _ => keeps_pure

theorem RowKeeps.of (h : ∀ p ∈ ps, ValueKeeps S p) : RowKeeps S ps :=
  Tree.byRow h .nil .token .node

theorem valueKeeps (hq : Roots N Q) (t : Tree) : Q t → ValueKeeps S t := by
  induction t using Tree.byParts with
  | token u => exact fun _ => ⟨fun e => keeps_pure, .nil⟩
  | node rule line ps ih =>
    intro ht
    have parts : ∀ p ∈ ps, Q p := hq.part _ ht
    have rows : RowKeeps S ps := .of fun p hp => ih p hp (parts p hp)
    refine ⟨fun e => ?_, rows⟩
    cases rule with
    | list =>
      unfold value
      exact (rows.firsts e _).bind fun _ => keeps_pure
    | map =>
      unfold value
      exact (rows.entries e).bind fun _ => keeps_pure
    | path =>
      unfold value
      split
      · exact keeps_pure
      · refine reports_lookup.keeping fun found => ?_
        split
        · exact Reports.keeping (reports_report rfl) fun _ => keeps_pure
        · exact (rows.fragments e _).bind fun _ => keeps_pure
    | binaryExpression =>
      unfold value
      exact (rows.firsts e 2).bind fun _ => reports_betweenType.keeping fun _ => keeps_pure
    | unaryExpression =>
      unfold value
      exact (rows.firsts e 1).bind fun _ => reports_beforeType.keeping fun _ => keeps_pure
    | cast =>
      unfold value
      exact (rows.firsts e 1).bind fun _ => reports_castType.keeping fun _ => keeps_pure
    | expressionStatement =>
      unfold value
      exact (rows.firsts e 1).bind fun _ => keeps_pure
    | serviceCall =>
      unfold value
      split
      · exact keeps_pure
      · rename_i path hpath
        split
        · exact keeps_pure
        · rename_i root hroot
          have hname : N root.literal :=
            hq.root _ ht (.inl rfl) path (List.mem_of_find?_eq_some hpath) (List.find?_some hpath) root hroot
          dsimp only
          refine reports_lookup.keeping fun found => ?_
          split
          · split
            · refine Reports.keeping (reports_report rfl) fun _ => ?_
              exact (rows.arguments e).bind fun _ => keeps_pure
            · refine (rows.arguments e).bind fun _ => ?_
              exact (keeps_commandCall hname).bind fun _ => keeps_pure
          · split
            · exact (rows.arguments e).bind fun _ => keeps_pure
            · exact (rows.call e).bind fun _ => keeps_pure
    | mutation =>
      unfold value
      exact (rows.mutation e).bind fun _ => keeps_pure
    | functionCall =>
      unfold value
      refine (rows.arguments e).bind fun _ => ?_
      exact reports_functionCall.keeping fun _ => keeps_pure
    | _ => exact keeps_pure

/-! ## Statements -/

/-- Checking the statements of a row keeps the relation, whichever way the row is followed. -/
structure BodyKeeps (T : Steps N) (ps : List Tree) : Prop where
  statements : ∀ e flow, Keeps T.toReporting (statements e flow ps)
  bodyOf : ∀ e, Keeps T.toReporting (bodyOf e ps)
  blockOf : ∀ e, Keeps T.toReporting (blockOf e ps)
  branches : ∀ e, Keeps T.toReporting (branches e ps)
  branch : ∀ e, Keeps T.toReporting (branch e ps)
  handlers : ∀ e, Keeps T.toReporting (handlers e ps)

/-- Checking a statement or a branch keeps the relation. -/
structure TreeKeeps (T : Steps N) (t : Tree) : Prop where
  value : ∀ e, Keeps T.toReporting (value e t)
  statement : ∀ e, Keeps T.toReporting (statement e t)
  bodies : BodyKeeps T t.parts

theorem keeps_condition {e : Env} (h : Keeps S (value e t)) : Keeps S (condition e t) := by
  refine h.bind fun out => ?_
  dsimp only
  split
  · exact Reports.keeping (reports_report rfl) fun _ => keeps_pure
  · exact keeps_pure

theorem keeps_nodeValue {e : Env} {i : Nat} (h : ∀ p ∈ ps, Keeps S (value e p)) :
    Keeps S (nodeValue e i ps) := by
  unfold nodeValue
  split
  · exact keeps_pure
  · rename_i t ht
    exact (h t (List.mem_filter.1 (List.mem_of_getElem? ht)).1).bind fun _ => keeps_pure

theorem keeps_assignment {e : Env} (h : ∀ p ∈ ps, Keeps T.toReporting (value e p)) :
    Keeps T.toReporting (assignment e t ps) := by
  refine (keeps_nodeValue h).bind fun out => ?_
  dsimp only
  split
  · exact keeps_pure
  · rename_i path hpath
    rw [find?_putNode_succ] at hpath
    split
    · exact keeps_pure
    · split
      · refine (h path (List.mem_of_find?_eq_some hpath)).bind fun _ => ?_
        exact reports_assignable.keeping fun _ => keeps_pure
      · refine reports_lookup.keeping fun found => ?_
        split
        · exact reports_assignable.keeping fun _ => keeps_pure
        · exact keeps_declare.bind fun _ => keeps_pure

theorem keeps_returned {e : Env} (h : ∀ p ∈ ps, Keeps S (value e p)) : Keeps S (returned e ps) := by
  refine (keeps_nodeValue h).bind fun out => ?_
  dsimp only
  split
  · split
    · exact Reports.keeping (reports_report rfl) fun _ => keeps_pure
    · exact keeps_pure
  · exact keeps_pure

theorem BodyKeeps.nil : BodyKeeps T [] where
  statements _ _ := keeps_pure
  bodyOf _ := keeps_pure
  blockOf _ := keeps_pure
  branches _ := keeps_pure
  branch _ := keeps_pure
  handlers _ := keeps_pure

theorem BodyKeeps.token {u : Token} (h : BodyKeeps T ps) : BodyKeeps T (.token u :: ps) where
  statements e flow := by
    unfold Check.statements
    exact (h.statements e flow).bind fun _ => keeps_pure
  bodyOf e := by
    unfold Check.bodyOf
    exact h.bodyOf e
  blockOf e := by
    unfold Check.blockOf
    exact h.blockOf e
  branches e := by
    unfold Check.branches
    exact (h.branches e).bind fun _ => keeps_pure
  branch e := by
    unfold Check.branch
    exact (h.branch e).bind fun _ => keeps_pure
  handlers e := by
    unfold Check.handlers
    exact (h.handlers e).bind fun _ => keeps_pure

theorem BodyKeeps.node {rule : Rule} {line : Option Coord} {inner : List Tree}
    (ht : TreeKeeps T (.node rule line inner)) (h : BodyKeeps T ps) :
    BodyKeeps T (.node rule line inner :: ps) where
  statements e flow := by
    unfold Check.statements
    refine reports_enter.keeping fun flow => (ht.statement e).bind fun t => ?_
    exact (h.statements e _).bind fun _ => keeps_pure
  bodyOf e := by
    by_cases hr : rule = .block
    · subst hr
      unfold Check.bodyOf
      exact (ht.bodies.statements e .open).bind fun _ => keeps_pure
    · rw [bodyOf_other hr]
      exact h.bodyOf e
  blockOf e := by
    by_cases hr : rule = .block
    · subst hr
      unfold Check.blockOf
      exact (keeps_inOwnScope (ht.bodies.statements e .open)).bind fun _ => keeps_pure
    · rw [blockOf_other hr]
      exact h.blockOf e
  branches e := by
    have other : Keeps T.toReporting (condition e (.node rule line inner) >>= fun first =>
        Check.branches e ps >>= fun rest => pure (first :: rest)) :=
      (keeps_condition (ht.value e)).bind fun _ => (h.branches e).bind fun _ => keeps_pure
    cases rule with
    | block =>
      unfold Check.branches
      refine (keeps_inOwnScope (ht.bodies.statements e .open)).bind fun _ => ?_
      exact (h.branches e).bind fun _ => keeps_pure
    | elifBlock =>
      unfold Check.branches
      exact (ht.bodies.branch e).bind fun _ => (h.branches e).bind fun _ => keeps_pure
    | elseBlock =>
      unfold Check.branches
      exact (ht.bodies.blockOf e).bind fun _ => (h.branches e).bind fun _ => keeps_pure
    | _ => exact other
  branch e := by
    have other : Keeps T.toReporting (condition e (.node rule line inner) >>= fun first =>
        Check.branch e ps >>= fun rest => pure (first :: rest)) :=
      (keeps_condition (ht.value e)).bind fun _ => (h.branch e).bind fun _ => keeps_pure
    cases rule with
    | block =>
      unfold Check.branch
      refine (keeps_inOwnScope (ht.bodies.statements e .open)).bind fun _ => ?_
      exact (h.branch e).bind fun _ => keeps_pure
    | _ => exact other
  handlers e := by
    have other : Keeps T.toReporting (Check.handlers e ps >>= fun rest =>
        pure (Tree.node rule line inner :: rest)) :=
      (h.handlers e).bind fun _ => keeps_pure
    cases rule with
    | block =>
      unfold Check.handlers
      refine (keeps_inOwnScope (ht.bodies.statements e .open)).bind fun _ => ?_
      exact (h.handlers e).bind fun _ => keeps_pure
    | catchBlock =>
      unfold Check.handlers
      refine keeps_pushed fun _ => keeps_declareAll.inner fun _ => ?_
      refine (ht.bodies.bodyOf e).inner fun _ => closes_pop fun _ => ?_
      exact (h.handlers e).bind fun _ => keeps_pure
    | finallyBlock =>
      unfold Check.handlers
      exact (ht.bodies.blockOf e).bind fun _ => (h.handlers e).bind fun _ => keeps_pure
    | _ => exact other

theorem BodyKeeps.of (h : ∀ p ∈ ps, TreeKeeps T p) : BodyKeeps T ps :=
  Tree.byRow h .nil .token .node

/-- A call in a list of statements, whose block is checked behind it. -/
theorem keeps_callBlock {e : Env} {x : Check (Tree × Ty)} (h : Keeps T.toReporting x)
    (hb : Keeps T.toReporting (blockOf e ps)) : Keeps T.toReporting (do
      let (t, ty) ← x
      declareOutput t ty
      let body ← blockOf e ps
      match t with
      | .node rule line ps => return .node rule line (Tree.putFirst .block body ps)
      | t => return t) := by
  refine h.bind fun out => keeps_declareAll.bind fun _ => hb.bind fun body => ?_
  obtain ⟨t, ty⟩ := out
  cases t <;> exact keeps_pure

theorem treeKeeps (hq : Roots N Q) (t : Tree) : Q t → TreeKeeps T t := by
  induction t using Tree.byParts with
  | token u => exact fun ht => ⟨fun e => keeps_pure, fun e => keeps_pure, .nil⟩
  | node rule line ps ih =>
    intro ht
    have parts : ∀ p ∈ ps, Q p := hq.part _ ht
    have hall : ∀ p ∈ ps, TreeKeeps T p := fun p hp => ih p hp (parts p hp)
    have bodies : BodyKeeps T ps := .of hall
    have values : ValueKeeps T.toReporting (.node rule line ps) := valueKeeps hq _ ht
    have hvalue : ∀ e, ∀ p ∈ ps, Keeps T.toReporting (Check.value e p) := fun e p hp => (hall p hp).value e
    refine ⟨values.value, fun e => ?_, bodies⟩
    cases rule with
    | assignment =>
      unfold statement
      exact (keeps_assignment (hvalue e)).bind fun _ => keeps_pure
    | serviceCall =>
      rw [statement_call (.inl rfl)]
      exact keeps_callBlock (values.value e) (bodies.blockOf e)
    | mutation =>
      rw [statement_call (.inr rfl)]
      exact keeps_callBlock (values.value e) (bodies.blockOf e)
    | functionCall | expressionStatement =>
      unfold statement
      exact (values.value e).bind fun _ => keeps_pure
    | ifBlock =>
      unfold statement
      exact (bodies.branches e).bind fun _ => keeps_pure
    | tryBlock =>
      unfold statement
      exact (bodies.handlers e).bind fun _ => keeps_pure
    | whileBlock =>
      have rest : ∀ first : Option Tree, Keeps T.toReporting (blockOf e ps >>= fun body => pure
          (Tree.node .whileBlock line (Tree.putFirst .block body (Tree.putNode first 0 ps)))) :=
        fun first => (bodies.blockOf e).bind fun _ => keeps_pure
      unfold statement
      dsimp only
      split
      · rename_i first hfirst
        rw [map_eq_pure_bind]
        simp only [bind_assoc, pure_bind]
        have hcondition := keeps_condition (hvalue e first (List.mem_of_find?_eq_some hfirst))
        exact hcondition.bind fun t => rest (some t)
      · exact keeps_pure.bind rest
    | foreachBlock =>
      unfold statement
      refine (keeps_nodeValue (hvalue e)).bind fun out => reports_iteratedTypes.keeping fun tys => ?_
      refine keeps_pushed fun _ => keeps_declareAll.inner fun _ => (bodies.bodyOf e).inner fun _ => ?_
      exact closes_pop fun _ => keeps_pure
    | functionBlock =>
      unfold statement
      split
      · exact keeps_pure
      · refine keeps_pushed fun _ => (reports_topNumber (r := none)).keeps.inner fun floor => ?_
        refine keeps_declareAll.inner fun _ => (bodies.bodyOf _).inner fun _ => ?_
        exact closes_pop fun _ => keeps_pure
    | whenBlock =>
      unfold statement
      refine (values.rows.arguments e).bind fun out => ?_
      dsimp only
      split
      · exact keeps_pure
      · rename_i root hroot
        obtain ⟨path, hpath, hroot⟩ := Option.bind_eq_some_iff.1 hroot
        have hname : N root.literal :=
          hq.root _ ht (.inr rfl) path (List.mem_of_find?_eq_some hpath) (List.find?_some hpath) root hroot
        refine (keeps_listening hname).bind fun ty => keeps_pushed fun _ => ?_
        refine keeps_declareAll.inner fun _ => (bodies.bodyOf e).inner fun _ => ?_
        exact closes_pop fun _ => keeps_pure
    | returnStatement =>
      unfold statement
      exact (keeps_returned (hvalue e)).bind fun _ => keeps_pure
    | throwStatement =>
      unfold statement
      exact (keeps_nodeValue (hvalue e)).bind fun _ => keeps_pure
    | importStatement =>
      unfold statement
      split
      · exact keeps_pure
      · exact keeps_declare.bind fun _ => keeps_pure
    | _ => exact keeps_pure

/-- So is the check of a list of statements. -/
theorem keeps_statements (T : Steps N) (hq : Roots N Q) (h : ∀ p ∈ ps, Q p) (e : Env) (flow : Flow) :
    Keeps T.toReporting (statements e flow ps) :=
  (BodyKeeps.of fun p hp => treeKeeps hq p (h p hp)).statements e flow

end StoryLang.Check

/-! ## Services -/

namespace StoryLang.Check

variable {N : String → Prop} {Q : Tree → Prop}

/-- If all services noted before are `N`, those noted after are. -/
def noting (N : String → Prop) : Steps N where
  rel s t := (∀ n ∈ s.services.names, N n) → ∀ n ∈ t.services.names, N n
  trans h h' hs := h' (h hs)
  reported _ hservices _ hs := hservices ▸ hs
  used h hs n hn := by
    rcases NameMap.mem_names_insert.1 hn with rfl | hn
    · exact h
    · exact hs n hn
  declared _ hs := hs
  redeclared hs := hs
  closed h hs := h hs

/-- A story is checked in a scope on top of the root, with its functions and no services noted before. -/
theorem story_run {f : Features} {registry : Option Registry} {root : Scope} {rule : Rule} {own : Option Coord}
    {trees : List Tree} {t' : Tree} {analysis : Analysis}
    (h : story f registry root (.node rule own trees) = .ok (t', analysis)) :
    ∃ functions s ts s', s.scopes = (Scopes.ofRoot root).push ∧ s.services = .empty ∧
      statements { features := f, registry, functions, body := none } .open trees s = .ok (ts, s') ∧
      analysis.services = s'.services.names ∧ analysis.diagnostics = s'.reports.reverse ∧
      analysis.scope = s'.scopes.top ∧
      signatures (.node rule own trees) { scopes := .ofRoot root, reports := [], services := .empty } =
        .ok (functions, { s with scopes := .ofRoot root }) := by
  unfold story at h
  obtain ⟨⟨⟨t, functions⟩, s⟩, hout, h⟩ := ok_of_bind h
  obtain ⟨-, rfl⟩ := Prod.mk.inj (Except.ok.inj h)
  unfold tree at hout
  obtain ⟨functions, u, hsignatures, hout⟩ := bind_ok_iff.1 hout
  obtain ⟨_, v, hpush, hout⟩ := bind_ok_iff.1 hout
  obtain ⟨-, rfl⟩ := Prod.mk.inj (Except.ok.inj hpush)
  obtain ⟨ts, w, hts, hout⟩ := bind_ok_iff.1 hout
  obtain ⟨-, rfl⟩ := Prod.mk.inj (Except.ok.inj hout)
  have hs := @logs_signatures none (.node rule own trees)
    { scopes := .ofRoot root, reports := [], services := .empty }
  rw [hsignatures] at hs
  obtain ⟨⟨hscopes, hservices⟩, -, -⟩ := hs
  have hu : u = { u with scopes := .ofRoot root } := by rw [← show u.scopes = .ofRoot root from hscopes]
  exact ⟨functions, { u with scopes := u.scopes.push }, ts, _, congrArg Scopes.push hscopes, hservices, hts,
    rfl, rfl, rfl, hsignatures.trans (congrArg (fun u => Except.ok (functions, u)) hu)⟩

/-- The services of a story are names that it calls or listens to. -/
theorem story_services (hq : Roots N Q) {f : Features} {registry : Option Registry} {root : Scope}
    {trees : List Tree} (ht : ∀ t ∈ trees, Q t) {t' : Tree} {analysis : Analysis}
    (h : story f registry root (.of .start trees) = .ok (t', analysis)) :
    ∀ n ∈ analysis.services, N n := by
  obtain ⟨functions, s, ts, s', -, hservices, hrun, hanalysis, -⟩ := story_run h
  rw [hanalysis]
  refine keeps_statements (noting N) hq ht _ _ s ts s' hrun fun n hn => ?_
  rw [hservices] at hn
  cases hn

end StoryLang.Check
