/-
What checking something ensures.

Checking reports mistakes and goes on, so the only way for it to stop is a
registry that fails. `Check.Ensures r x post` says that with the registry `r`
the check `x` gives back something for which `post` holds unless that happens,
and that it reports no internal error. Most checks change nothing but the
reports besides, which is what `Check.Quiet` adds, with the codes that they can
report; the checks that only look up and report are covered here once. That a
name was declared before is reported by declarations alone.
-/
import StoryLang.Check.Call
import StoryLang.Check.Statement

namespace StoryLang

/-- Whether a report with that code is about a mistake in the story. -/
def Code.ofStory (code : Code) : Bool := code ≠ .internal

/-- Whether it is about a mistake in the story other than a second declaration. -/
def Code.ofUse (code : Code) : Bool := code ≠ .internal && code ≠ .alreadyDeclared

theorem Code.ofUse.ofStory {code : Code} (h : code.ofUse = true) : code.ofStory = true := by
  simp_all [Code.ofUse, Code.ofStory]

end StoryLang

namespace StoryLang.Check

variable {α β : Type} {r : Option Registry} {codes : Code → Bool}

/-- A check in two steps gives something if both do. -/
theorem bind_ok_iff {x : Check α} {f : α → Check β} {b : β} {s t : State} :
    (x >>= f) s = .ok (b, t) ↔ ∃ a u, x s = .ok (a, u) ∧ f a u = .ok (b, t) := by
  constructor
  · intro h
    cases hx : x s with
    | error fault => simp [Bind.bind, StateT.bind, Except.bind, hx] at h
    | ok out => exact ⟨out.1, out.2, rfl, by simpa [Bind.bind, StateT.bind, Except.bind, hx] using h⟩
  · rintro ⟨a, u, hx, hf⟩
    simpa [Bind.bind, StateT.bind, Except.bind, hx] using hf

/-- Nothing that was reported so far is an internal error. -/
def State.OfStory (s : State) : Prop := ∀ d ∈ s.reports, d.code ≠ .internal

def Ensures (r : Option Registry) (x : Check α) (post : α → Prop) : Prop :=
  ∀ s : State, s.OfStory →
    match x s with
    | .ok (a, s') => s'.OfStory ∧ post a
    | .error _ => r = some .failing

/-- The check gives something back, whatever it is. -/
abbrev Runs (r : Option Registry) (x : Check α) : Prop := Ensures r x fun _ => True

theorem ensures_pure {a : α} {post : α → Prop} (h : post a) : Ensures r (pure a) post :=
  fun _ hs => ⟨hs, h⟩

theorem Ensures.mono {x : Check α} {post post' : α → Prop} (h : Ensures r x post)
    (hp : ∀ a, post a → post' a) : Ensures r x post' := by
  intro s hs
  have h := h s hs
  split at h
  · exact ⟨h.1, hp _ h.2⟩
  · exact h

theorem Ensures.bind {x : Check α} {f : α → Check β} {mid : α → Prop} {post : β → Prop}
    (h : Ensures r x mid) (hf : ∀ a, mid a → Ensures r (f a) post) : Ensures r (x >>= f) post := by
  intro s hs
  have h := h s hs
  simp only [Bind.bind, StateT.bind, Except.bind]
  split at h
  · rename_i a s' hx
    rw [hx]
    exact hf a h.2 s' h.1
  · rename_i e hx
    rw [hx]
    exact h

theorem Runs.bind {x : Check α} {f : α → Check β} {post : β → Prop} (h : Runs r x)
    (hf : ∀ a, Ensures r (f a) post) : Ensures r (x >>= f) post :=
  Ensures.bind h fun a _ => hf a

theorem runs_pure {a : α} : Runs r (pure a) := ensures_pure trivial

/-! ## Checks that only report -/

/-- What was reported in between is in front of what was reported before, and has
codes of these only. -/
def State.Since (codes : Code → Bool) (s s' : State) : Prop :=
  ∃ new, s'.reports = new ++ s.reports ∧ ∀ d ∈ new, codes d.code = true

theorem State.Since.refl {s s' : State} (h : s'.reports = s.reports) : s.Since codes s' :=
  ⟨[], h, List.forall_mem_nil _⟩

theorem State.Since.trans {s s' s'' : State} (h : s.Since codes s') (h' : s'.Since codes s'') :
    s.Since codes s'' := by
  obtain ⟨new, hs, hn⟩ := h
  obtain ⟨more, hs', hm⟩ := h'
  exact ⟨more ++ new, by rw [hs', hs, List.append_assoc], List.forall_mem_append.2 ⟨hm, hn⟩⟩

theorem State.Since.mono {more : Code → Bool} {s s' : State} (h : s.Since codes s')
    (hc : ∀ c, codes c = true → more c = true) : s.Since more s' := by
  obtain ⟨new, hs, hn⟩ := h
  exact ⟨new, hs, fun d hd => hc _ (hn d hd)⟩

theorem State.Since.ofStory {s s' : State} (h : s.Since Code.ofStory s') (hs : s.OfStory) : s'.OfStory := by
  obtain ⟨new, hs', hn⟩ := h
  rw [OfStory, hs']
  exact List.forall_mem_append.2 ⟨fun d hd => by simpa [Code.ofStory] using hn d hd, hs⟩

/-- The check ensures `post` and changes nothing but the reports, to which it
adds some with codes of these. -/
def Quiet (codes : Code → Bool) (r : Option Registry) (x : Check α) (post : α → Prop) : Prop :=
  ∀ s : State,
    match x s with
    | .ok (a, s') => (s'.scopes = s.scopes ∧ s'.services = s.services) ∧ s.Since codes s' ∧ post a
    | .error _ => r = some .failing

/-- The check changes nothing but the reports, whatever it gives. -/
abbrev Logs (codes : Code → Bool) (r : Option Registry) (x : Check α) : Prop :=
  Quiet codes r x fun _ => True

/-- The same, without a report about a second declaration. -/
abbrev Reports (r : Option Registry) (x : Check α) : Prop := Logs Code.ofUse r x

theorem Quiet.mono {more : Code → Bool} {x : Check α} {post : α → Prop} (h : Quiet codes r x post)
    (hc : ∀ c, codes c = true → more c = true) : Quiet more r x post := by
  intro s
  have h := h s
  split at h
  · exact ⟨h.1, h.2.1.mono hc, h.2.2⟩
  · exact h

theorem Quiet.ensures {x : Check α} {post : α → Prop} (h : Quiet Code.ofStory r x post) :
    Ensures r x post := by
  intro s hs
  have h := h s
  split at h
  · exact ⟨h.2.1.ofStory hs, h.2.2⟩
  · exact h

/-- The check may report anything about the story. -/
theorem Quiet.ofStory {x : Check α} {post : α → Prop} (h : Quiet Code.ofUse r x post) :
    Quiet Code.ofStory r x post :=
  h.mono fun _ => Code.ofUse.ofStory

theorem Reports.runs {x : Check α} (h : Reports r x) : Runs r x := (Quiet.ofStory h).ensures

theorem quiet_pure {a : α} {post : α → Prop} (h : post a) : Quiet codes r (pure a) post :=
  fun _ => ⟨⟨rfl, rfl⟩, .refl rfl, h⟩

theorem reports_pure {a : α} : Logs codes r (pure a) := quiet_pure trivial

theorem Quiet.bind {x : Check α} {f : α → Check β} {mid : α → Prop} {post : β → Prop}
    (h : Quiet codes r x mid) (hf : ∀ a, mid a → Quiet codes r (f a) post) :
    Quiet codes r (x >>= f) post := by
  intro s
  have h := h s
  simp only [Bind.bind, StateT.bind, Except.bind]
  split at h
  · rename_i a s' hx
    rw [hx]
    obtain ⟨⟨hscopes, hservices⟩, hs, ha⟩ := h
    have h' := hf a ha s'
    dsimp only
    split at h'
    · exact ⟨⟨h'.1.1.trans hscopes, h'.1.2.trans hservices⟩, hs.trans h'.2.1, h'.2.2⟩
    · exact h'
  · rename_i e hx
    rw [hx]
    exact h

theorem Logs.bind {x : Check α} {f : α → Check β} {post : β → Prop} (h : Logs codes r x)
    (hf : ∀ a, Quiet codes r (f a) post) : Quiet codes r (x >>= f) post :=
  Quiet.bind h fun a _ => hf a

theorem quiet_ite {c : Prop} [Decidable c] {x y : Check α} {post : α → Prop} (h : Quiet codes r x post)
    (h' : Quiet codes r y post) : Quiet codes r (if c then x else y) post := by
  split
  · exact h
  · exact h'

theorem reports_forIn {l : List β} {f : β → PUnit → Check (ForInStep PUnit)}
    (h : ∀ b u, Reports r (f b u)) : ∀ u, Reports r (forIn l u f) := by
  induction l with
  | nil => exact fun _ => reports_pure
  | cons b l ih =>
    intro u
    rw [List.forIn_cons]
    refine (h b u).bind fun step => ?_
    cases step with
    | done u => exact reports_pure
    | yield u => exact ih u

theorem logs_foldlM {f : α → β → Check α} (h : ∀ a b, Logs codes r (f a b)) {l : List β} :
    ∀ a, Logs codes r (l.foldlM f a) := by
  induction l with
  | nil => exact fun _ => reports_pure
  | cons b l ih =>
    intro a
    rw [List.foldlM_cons]
    exact (h a b).bind ih

theorem reports_mapM {f : α → Check β} (h : ∀ a, Reports r (f a)) {l : List α} :
    Reports r (l.mapM f) := by
  induction l with
  | nil => exact reports_pure
  | cons a l ih =>
    rw [List.mapM_cons]
    exact (h a).bind fun _ => ih.bind fun _ => reports_pure

/-! ## Looking up, declaring and reporting -/

theorem reports_report {code : Code} {args : List String} {place : Option Position}
    (h : codes code = true) : Logs codes r (report code args place) := by
  refine fun s => ⟨⟨rfl, rfl⟩, ⟨[_], rfl, List.forall_mem_singleton.2 ?_⟩, trivial⟩
  split <;> exact h

theorem quiet_report {code : Code} {args : List String} {place : Option Position}
    {f : Unit → Check α} {post : α → Prop} (h : codes code = true)
    (hf : ∀ u, Quiet codes r (f u) post) : Quiet codes r (report code args place >>= f) post :=
  (reports_report h).bind hf

theorem ensures_report {code : Code} {args : List String} {place : Option Position}
    {f : Unit → Check α} {post : α → Prop} (h : code.ofUse = true)
    (hf : ∀ u, Ensures r (f u) post) : Ensures r (report code args place >>= f) post :=
  (Reports.runs (reports_report h)).bind hf

theorem reports_lookup {e : Env} {name : String} : Reports r (lookup e name) :=
  fun _ => ⟨⟨rfl, rfl⟩, .refl rfl, trivial⟩

theorem reports_topNumber : Reports r topNumber := fun _ => ⟨⟨rfl, rfl⟩, .refl rfl, trivial⟩

theorem runs_push : Runs r push := fun _ hs => ⟨hs, trivial⟩

theorem runs_pop : Runs r pop := fun _ hs => ⟨hs, trivial⟩

theorem runs_useService {name : String} : Runs r (useService name) :=
  fun _ hs => ⟨hs, trivial⟩

theorem runs_declare {name : String} {ty : Ty} {line : Option Coord} {place : Position} :
    Runs r (declare name ty line place) := by
  intro s hs
  unfold declare
  cases s.scopes.declare ⟨name, ty, line⟩ with
  | ok scopes => exact ⟨hs, trivial⟩
  | error existing =>
    have h : Logs Code.ofStory r (report .alreadyDeclared [name, existing.lineText] (some place)) :=
      reports_report rfl
    exact h.ensures s hs

theorem ensures_inOwnScope {x : Check α} {post : α → Prop} (h : Ensures r x post) :
    Ensures r (inOwnScope x) post :=
  runs_push.bind fun _ => h.bind fun _ ha => runs_pop.bind fun _ => ensures_pure ha

/-- The one check that can stop. -/
theorem reports_service? {registry : Registry} {name : String} (hr : r = some registry) :
    Reports r (service? registry name) := by
  intro s
  cases registry with
  | hub h => exact ⟨⟨rfl, rfl⟩, .refl rfl, trivial⟩
  | failing => exact hr

theorem reports_writtenType {types : Option Tree} : Reports r (writtenType types) := by
  unfold writtenType
  split
  · exact reports_pure
  · split
    · exact reports_pure
    · exact quiet_report rfl fun _ => reports_pure

theorem runs_declareAll {line : Option Coord} {names : List Token} {tys : List Ty} :
    Runs r (declareAll line names tys) := by
  induction names generalizing tys with
  | nil => exact runs_pure
  | cons name names ih => exact runs_declare.bind fun _ => ih

theorem runs_declareOutput {t : Tree} {ty : Ty} : Runs r (declareOutput t ty) := runs_declareAll

/-! ## Calls -/

theorem reports_arguments {callee : String} {parameters : List (String × Ty)}
    {supplied : List Supplied} {place : Position} :
    Reports r (arguments callee parameters supplied place) := by
  refine Logs.bind (reports_forIn (fun given _ => ?_) _) fun _ => Logs.bind
    (reports_forIn (fun p _ => ?_) _) fun _ => reports_pure
  · split
    · exact quiet_report rfl fun _ => reports_pure
    · exact quiet_ite (quiet_report rfl fun _ => reports_pure) reports_pure
  · exact quiet_ite (quiet_report rfl fun _ => reports_pure) reports_pure

theorem reports_serviceArguments {service command : String} {expected : NameMap HubArgument}
    {supplied : List Supplied} {place : Position} :
    Reports r (serviceArguments service command expected supplied place) := by
  refine Logs.bind (reports_forIn (fun given _ => ?_) _) fun _ => Logs.bind
    (reports_forIn (fun p _ => ?_) _) fun _ => reports_pure
  · split
    · exact quiet_report rfl fun _ => reports_pure
    · exact quiet_ite (quiet_report rfl fun _ => reports_pure) reports_pure
  · exact quiet_ite (quiet_report rfl fun _ => reports_pure) reports_pure

/-- What a call of a command checks once the service is noted. -/
def commanded (e : Env) (service : String) (servicePlace : Position) (command : Option Token)
    (supplied : List Supplied) : Check Ty := do
  match command, e.registry with
  | some command, some registry =>
    match ← service? registry service with
    | none =>
      report .unknownService [service] (some servicePlace)
      return .any
    | some known =>
      match known.commands.get? command.literal with
      | none =>
        report .unknownCommand [service, command.literal] (some command.position)
        return .any
      | some signature =>
        serviceArguments service command.literal signature.arguments supplied command.position
        if signature.events.isEmpty then return signature.outputTy
        else return .service service command.literal
  | _, _ => return .any

theorem commandCall_eq {e : Env} {service : String} {place : Position} {command : Option Token}
    {supplied : List Supplied} :
    commandCall e service place command supplied =
      useService service >>= fun _ => commanded e service place command supplied :=
  rfl

theorem reports_commanded {e : Env} {service : String} {place : Position} {command : Option Token}
    {supplied : List Supplied} :
    Reports e.registry (commanded e service place command supplied) := by
  unfold commanded
  split
  · rename_i registry _ hr
    refine (reports_service? hr).bind fun known => ?_
    split
    · exact quiet_report rfl fun _ => reports_pure
    · split
      · exact quiet_report rfl fun _ => reports_pure
      · exact reports_serviceArguments.bind fun _ => quiet_ite reports_pure reports_pure
  · exact reports_pure

theorem runs_commandCall {e : Env} {service : String} {place : Position} {command : Option Token}
    {supplied : List Supplied} :
    Runs e.registry (commandCall e service place command supplied) := by
  rw [commandCall_eq]
  exact runs_useService.bind fun _ => reports_commanded.runs

theorem reports_eventCall {e : Env} {service command : String} {event : Token}
    {supplied : List Supplied} :
    Reports e.registry (eventCall e service command event supplied) := by
  unfold eventCall
  split
  · exact reports_pure
  · rename_i registry hr
    refine (reports_service? hr).bind fun known => ?_
    split
    · exact reports_pure
    · split
      · exact quiet_report rfl fun _ => reports_pure
      · exact reports_serviceArguments.bind fun _ => reports_pure

theorem reports_functionCall {e : Env} {name : Option Token} {supplied : List Supplied} :
    Reports r (functionCall e name supplied) := by
  unfold functionCall
  split
  · exact reports_pure
  · split
    · exact quiet_report rfl fun _ => reports_pure
    · exact reports_arguments.bind fun _ => reports_pure

theorem reports_mutationCall {subject : Ty} {name : Option Token} {supplied : List Supplied} :
    Reports r (mutationCall subject name supplied) := by
  unfold mutationCall
  split
  · exact reports_pure
  · split
    · exact quiet_report rfl fun _ => reports_pure
    · exact quiet_ite (reports_arguments.bind fun _ => reports_pure) reports_pure

/-! ## Types -/

theorem reports_betweenType {parts : List Tree} {operands : List Ty} :
    Reports r (betweenType parts operands) := by
  unfold betweenType
  split
  · exact reports_pure
  · dsimp only
    split
    · exact reports_pure
    · exact quiet_report rfl fun _ => reports_pure

theorem reports_beforeType {parts : List Tree} {operands : List Ty} :
    Reports r (beforeType parts operands) := by
  unfold beforeType
  split
  · exact reports_pure
  · dsimp only
    split
    · exact reports_pure
    · exact quiet_report rfl fun _ => reports_pure

theorem reports_castType {parts : List Tree} {operands : List Ty} :
    Reports r (castType parts operands) := by
  refine reports_writtenType.bind fun target => ?_
  exact quiet_ite (quiet_report rfl fun _ => reports_pure) reports_pure

theorem reports_fieldType {subject : Ty} {name : Token} : Reports r (fieldType subject name) := by
  unfold fieldType
  split
  · exact reports_pure
  · exact quiet_report rfl fun _ => reports_pure

theorem reports_indexType {subject index : Ty} {place : Option Position} :
    Reports r (indexType subject index place) := by
  unfold indexType
  split
  · exact reports_pure
  · exact quiet_report rfl fun _ => reports_pure

/-! ## Statements -/

/-- Putting back a later node does not change which one is the first. -/
theorem find?_putNode_succ (new : Option Tree) (i : Nat) (ps : List Tree) :
    (Tree.putNode new (i + 1) ps).find? Tree.isNode = ps.find? Tree.isNode := by
  induction ps with
  | nil => rfl
  | cons t ps ih =>
    cases new with
    | none => rfl
    | some n =>
      cases ht : t.isNode <;> simp [Tree.putNode, ht, ih]

theorem reports_assignable {target source : Ty} {place : Position} :
    Reports r (assignable target source place) := by
  unfold assignable
  exact quiet_ite (reports_report rfl) reports_pure

theorem reports_iteratedTypes {source : Ty} {names : Nat} {place : Option Position} :
    Reports r (iteratedTypes source names place) := by
  have rest : ∀ tys : List Ty, Reports r (do
      if 2 < names then report .tooManyNames [source.text, "2"] place
      return tys) :=
    fun tys => quiet_ite (quiet_report rfl fun _ => reports_pure) reports_pure
  unfold iteratedTypes
  dsimp only
  split
  · exact reports_pure.bind rest
  · exact quiet_report rfl fun _ => reports_pure.bind rest

/-- What is checked of listening to a service once it is noted. -/
def unheard (e : Env) (root : Token) : Check Ty := do
  match e.registry with
  | some registry =>
    if (← service? registry root.literal).isNone then
      report .unknownService [root.literal] (some root.position)
  | none => pure ()
  return .any

/-- What is checked of listening once the name is looked up. -/
def heard (e : Env) (root : Token) (event : Option Token) (supplied : List Supplied)
    (found : Option Ty) : Check Ty := do
  match found with
  | some (.service service command) =>
    match event with
    | some event => eventCall e service command event supplied
    | none => return .any
  | some .any => return .any
  | some _ =>
    report .notServiceOutput [root.literal] (some root.position)
    return .any
  | none =>
    useService root.literal
    unheard e root

theorem listening_eq {e : Env} {root : Token} {event : Option Token} {supplied : List Supplied} :
    listening e root event supplied =
      lookup e root.literal >>= fun found => heard e root event supplied (found.map Binding.ty) :=
  rfl

theorem reports_heard {e : Env} {root : Token} {event : Option Token} {supplied : List Supplied}
    {ty : Ty} : Reports e.registry (heard e root event supplied (some ty)) := by
  unfold heard
  split
  · split
    · exact reports_eventCall
    · exact reports_pure
  · exact reports_pure
  · exact quiet_report rfl fun _ => reports_pure
  · contradiction

theorem reports_unheard {e : Env} {root : Token} : Reports e.registry (unheard e root) := by
  unfold unheard
  split
  · rename_i registry hr
    refine (reports_service? hr).bind fun known => ?_
    exact quiet_ite (quiet_report rfl fun _ => reports_pure) reports_pure
  · exact reports_pure

theorem runs_listening {e : Env} {root : Token} {event : Option Token} {supplied : List Supplied} :
    Runs e.registry (listening e root event supplied) := by
  rw [listening_eq]
  refine reports_lookup.runs.bind fun found => ?_
  cases found with
  | some found => exact reports_heard.runs
  | none => exact runs_useService.bind fun _ => reports_unheard.runs

theorem reports_enter {flow : Flow} {t : Tree} : Reports r (flow.enter t) := by
  unfold Flow.enter
  split
  · exact quiet_report rfl fun _ => reports_pure
  · exact reports_pure

/-- A call in a list of statements is a value whose outputs are declared and
whose block is checked behind it. -/
theorem statement_call {e : Env} {rule : Rule} {line : Option Coord} {ps : List Tree}
    (h : rule = .serviceCall ∨ rule = .mutation) :
    statement e (.node rule line ps) = (do
      let (t, ty) ← value e (.node rule line ps)
      declareOutput t ty
      let body ← blockOf e ps
      match t with
      | .node rule line ps => return .node rule line (Tree.putFirst .block body ps)
      | t => return t) := by
  rcases h with rfl | rfl <;> unfold statement <;> rfl

/-! ## Nodes that are passed over

A row is followed for the nodes of some rules, and every other node is taken alike. -/

section PassedOver

variable {e : Env} {rule : Rule} {line : Option Coord} {ps ts : List Tree}

theorem argumentsOf_other (h : rule ≠ .arguments) :
    argumentsOf e (.node rule line ps :: ts) = argumentsOf e ts := by
  cases rule <;> first | exact absurd rfl h | rfl

theorem links_other (h : rule ≠ .mutationFragment) (ty : Ty) :
    links e ty (.node rule line ps :: ts) =
      links e ty ts >>= fun out => pure (.node rule line ps :: out.1, out.2) := by
  cases rule <;> first | exact absurd rfl h | rfl

theorem bodyOf_other (h : rule ≠ .block) :
    bodyOf e (.node rule line ps :: ts) = bodyOf e ts := by
  cases rule <;> first | exact absurd rfl h | rfl

theorem blockOf_other (h : rule ≠ .block) :
    blockOf e (.node rule line ps :: ts) = blockOf e ts := by
  cases rule <;> first | exact absurd rfl h | rfl

theorem branches_other (hb : rule ≠ .block) (he : rule ≠ .elifBlock) (hl : rule ≠ .elseBlock) :
    branches e (.node rule line ps :: ts) = condition e (.node rule line ps) >>= fun first =>
      branches e ts >>= fun rest => pure (first :: rest) := by
  cases rule <;> first | exact absurd rfl hb | exact absurd rfl he | exact absurd rfl hl | rfl

theorem branch_other (h : rule ≠ .block) :
    branch e (.node rule line ps :: ts) = condition e (.node rule line ps) >>= fun first =>
      branch e ts >>= fun rest => pure (first :: rest) := by
  cases rule <;> first | exact absurd rfl h | rfl

theorem handlers_other (hb : rule ≠ .block) (hc : rule ≠ .catchBlock) (hf : rule ≠ .finallyBlock) :
    handlers e (.node rule line ps :: ts) =
      handlers e ts >>= fun rest => pure (.node rule line ps :: rest) := by
  cases rule <;> first | exact absurd rfl hb | exact absurd rfl hc | exact absurd rfl hf | rfl

end PassedOver

/-! ## Functions -/

theorem logs_signature {r : Option Registry} {functions : NameMap Signature} {t : Tree} :
    Logs Code.ofStory r (signature functions t) := by
  unfold signature
  split
  · exact reports_pure
  · have hparameters : Reports r ((t.findAll .parameter).mapM fun p => do
        return (((p.firstToken?.map (·.literal)).getD ""), ← writtenType (p.find? .types))) :=
      reports_mapM fun p => reports_writtenType.bind fun ty => reports_pure
    refine hparameters.ofStory.bind fun parameters _ => ?_
    dsimp only
    split
    · refine (Quiet.ofStory reports_writtenType).bind fun returns _ => ?_
      split
      · exact quiet_report rfl fun _ => reports_pure
      · exact reports_pure
    · refine reports_pure.bind fun returns => ?_
      split
      · exact quiet_report rfl fun _ => reports_pure
      · exact reports_pure

theorem logs_signatures {r : Option Registry} {t : Tree} : Logs Code.ofStory r (signatures t) :=
  logs_foldlM (fun _ _ => logs_signature) _

end StoryLang.Check
