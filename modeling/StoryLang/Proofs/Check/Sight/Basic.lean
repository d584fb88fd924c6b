/-
What a check depends on.

A check looks names up and declares them in the scopes on top. What it gives
back, reports and declares depends on the names that it sees, and on nothing
else: not on scopes further down that it looks past, and not on what was
reported or which services were noted before. `Check.Mirrors` says this of two
checks, that start with the same scopes on top of others, and with it that
nothing stops a check but a registry that fails.
-/
import StoryLang.Proofs.Check.Place
import StoryLang.Proofs.Follows

namespace StoryLang.Check

variable {α β : Type} {k l m : Nat} {below below' : List Scope} {e e' : Env} {s s' t t' : State}
  {old old' : List Diagnostic}

/-! ## Two checks that see the same -/

/-- What two checks see is the same, if the one stands on top of `below` and the other on
top of `below'`. -/
structure Env.Sees (e e' : Env) (below below' : List Scope) : Prop where
  features : e'.features = e.features
  registry : e'.registry = e.registry
  functions : e'.functions = e.functions
  body : e'.body.map (fun b => (b.name, b.returns)) = e.body.map fun b => (b.name, b.returns)
  found : ∀ top root name, e'.found ⟨top ++ below', root⟩ name = e.found ⟨top ++ below, root⟩ name

theorem Env.Sees.refl (e : Env) (below : List Scope) : e.Sees e below below :=
  ⟨rfl, rfl, rfl, rfl, fun _ _ _ => rfl⟩

/-- A name is found with the variables of the story wherever it is. -/
theorem Env.found_globals (h : e.features.globals = true) (scopes : Scopes) (name : String) :
    e.found scopes name = scopes.get? name := by
  unfold Env.found
  rw [h]
  split <;> rfl

theorem Env.Sees.globals (hs : e.Sees e' below below') (h : e.features.globals = true)
    (top : List Scope) (root : Scope) (name : String) :
    Scopes.get? ⟨top ++ below', root⟩ name = Scopes.get? ⟨top ++ below, root⟩ name := by
  have hf := hs.found top root name
  rwa [e.found_globals h, e'.found_globals (hs.features ▸ h)] at hf

/-- A body that starts in the scope after `k` others on top sees none of those below, unless
it sees the variables of the story. -/
theorem Scopes.getFrom?_append (top below : List Scope) (root : Scope) (hk : 1 ≤ k) (name : String) :
    Scopes.getFrom? ⟨top ++ below, root⟩ (k + below.length) name =
      Scopes.getFrom? ⟨top, root⟩ k name := by
  have hcount : (top ++ below).length + 1 - (k + below.length) = top.length + 1 - k := by
    rw [List.length_append]
    omega
  simp only [Scopes.getFrom?, Scopes.depth, hcount]
  rw [List.take_append_of_le_length (by omega)]

/-- Two bodies of one function see the same. With the variables of the story, what is around
them has to look the same. -/
theorem Env.Sees.inBody (hf : e'.features = e.features) (hr : e'.registry = e.registry)
    (hfs : e'.functions = e.functions) (hk : 1 ≤ k)
    (hg : e.features.globals = true → ∀ top root name,
      Scopes.get? ⟨top ++ below', root⟩ name = Scopes.get? ⟨top ++ below, root⟩ name)
    (name : String) (returns : Ty) :
    Env.Sees { e with body := some ⟨name, returns, k + below.length⟩ }
      { e' with body := some ⟨name, returns, k + below'.length⟩ } below below' where
  features := hf
  registry := hr
  functions := hfs
  body := rfl
  found top root name := by
    unfold Env.found
    dsimp only
    rw [hf]
    split
    · rename_i h
      exact hg h top root name
    · rw [Scopes.getFrom?_append top below' root hk, Scopes.getFrom?_append top below root hk]

/-- The scopes on top, of which there are `k`, are the same, those below and the root are where
they were, and the same was reported since `old` and `old'`. -/
structure Mirror (k : Nat) (below below' : List Scope) (root : Scope) (old old' : List Diagnostic)
    (s s' : State) : Prop where
  scopes : ∃ top : List Scope, top.length = k ∧ s.scopes = ⟨top ++ below, root⟩ ∧
    s'.scopes = ⟨top ++ below', root⟩
  reports : ∃ new, s.reports = new ++ old ∧ s'.reports = new ++ old'

/-- Two attempts end alike: both are stopped by the registry, or both give the same. -/
abbrev Mirrored (k : Nat) (below below' : List Scope) (root : Scope) (old old' : List Diagnostic) :
    Except Fault (α × State) → Except Fault (α × State) → Prop :=
  EndAlike (fun f f' => f = .internal .registryFailed ∧ f' = f)
    fun out out' => out'.1 = out.1 ∧ Mirror k below below' root old old' out.2 out'.2

/-- Whatever was reported before, two checks do the same with the `k` scopes on top, and leave
`l` scopes there. -/
def Reflects (k l : Nat) (below below' : List Scope) (x x' : Check α) : Prop :=
  ∀ root old old' s s', Mirror k below below' root old old' s s' →
    Mirrored l below below' root old old' (x s) (x' s')

/-- The same where as many scopes are left as there were. -/
abbrev Mirrors (k : Nat) (below below' : List Scope) (x x' : Check α) : Prop :=
  Reflects k k below below' x x'

/-- A check next to itself. -/
theorem Mirror.refl (s : State) {top : List Scope} (hs : s.scopes.inner = top ++ below) :
    Mirror top.length below below s.scopes.root s.reports s.reports s s :=
  ⟨⟨top, rfl, by rw [← hs], by rw [← hs]⟩, [], rfl, rfl⟩

/-- Nothing but the registry stops a check. -/
theorem Reflects.fault {x x' : Check α} {s : State} (h : Reflects s.scopes.inner.length l [] [] x x')
    {fault : Fault} (hx : x s = .error fault) : fault = .internal .registryFailed := by
  have h := h _ _ _ s s (.refl s (List.append_nil _).symm)
  rw [hx] at h
  generalize x' s = y at h
  cases h with
  | error reasons => exact reasons.1

theorem mirrors_pure {a : α} : Mirrors k below below' (pure a) (pure a) :=
  fun _ _ _ _ _ hs => .ok ⟨rfl, hs⟩

theorem Reflects.bind {x x' : Check α} {f f' : α → Check β} (h : Reflects k l below below' x x')
    (hf : ∀ a, Reflects l m below below' (f a) (f' a)) :
    Reflects k m below below' (x >>= f) (x' >>= f') := by
  intro root old old' s s' hs
  refine (h root old old' s s' hs).bind fun out out' ho => ?_
  obtain ⟨a, t⟩ := out
  obtain ⟨a', t'⟩ := out'
  obtain ⟨rfl, ht⟩ : a' = a ∧ Mirror l below below' root old old' t t' := ho
  exact hf a' root old old' t t' ht

theorem Reflects.ite {c : Prop} [Decidable c] {x x' y y' : Check α} (hx : Reflects k l below below' x x')
    (hy : Reflects k l below below' y y') :
    Reflects k l below below' (if c then x else y) (if c then x' else y') := by
  split
  · exact hx
  · exact hy

theorem mirrors_forIn {l : List β} {f f' : β → PUnit → Check (ForInStep PUnit)}
    (h : ∀ b u, Mirrors k below below' (f b u) (f' b u)) :
    ∀ u, Mirrors k below below' (forIn l u f) (forIn l u f') := by
  induction l with
  | nil => exact fun _ => mirrors_pure
  | cons b l ih =>
    intro u
    rw [List.forIn_cons, List.forIn_cons]
    refine (h b u).bind fun step => ?_
    cases step with
    | done u => exact mirrors_pure
    | yield u => exact ih u

theorem mirrors_mapM {f f' : α → Check β} (h : ∀ a, Mirrors k below below' (f a) (f' a))
    {l : List α} : Mirrors k below below' (l.mapM f) (l.mapM f') := by
  induction l with
  | nil => exact mirrors_pure
  | cons a l ih =>
    rw [List.mapM_cons, List.mapM_cons]
    exact (h a).bind fun _ => ih.bind fun _ => mirrors_pure

theorem mirrors_foldlM {f f' : α → β → Check α} (h : ∀ a b, Mirrors k below below' (f a b) (f' a b))
    {l : List β} : ∀ a, Mirrors k below below' (l.foldlM f a) (l.foldlM f' a) := by
  induction l with
  | nil => exact fun _ => mirrors_pure
  | cons b l ih =>
    intro a
    rw [List.foldlM_cons, List.foldlM_cons]
    exact (h a b).bind ih

/-! ## Steps of a check -/

theorem mirrors_report (code : Code) (args : List String) (place : Option Position) :
    Mirrors k below below' (report code args place) (report code args place) := by
  intro root old old' s s' hs
  obtain ⟨new, hn, hn'⟩ := hs.reports
  exact .ok ⟨rfl, hs.scopes, _ :: new, congrArg (_ :: ·) hn, congrArg (_ :: ·) hn'⟩

/-- A report, and what comes after it. -/
theorem Reflects.reported {f f' : Unit → Check α} {code : Code} {args : List String}
    {place : Option Position} (h : ∀ u, Reflects k l below below' (f u) (f' u)) :
    Reflects k l below below' (report code args place >>= f) (report code args place >>= f') :=
  (mirrors_report code args place).bind h

theorem Env.Sees.lookup (h : e.Sees e' below below') (name : String) :
    Mirrors k below below' (lookup e name) (lookup e' name) := by
  intro root old old' s s' hs
  obtain ⟨top, -, hi, hi'⟩ := hs.scopes
  have hfound : e'.found s'.scopes name = e.found s.scopes name := by
    rw [hi, hi']
    exact h.found top root name
  exact .ok ⟨hfound, hs⟩

theorem mirrors_useService (name : String) :
    Mirrors k below below' (useService name) (useService name) :=
  fun _ _ _ _ _ hs => .ok ⟨rfl, hs.scopes, hs.reports⟩

theorem mirrors_service? (r : Registry) (name : String) :
    Mirrors k below below' (service? r name) (service? r name) := by
  intro root old old' s s' hs
  cases r with
  | hub h => exact .ok ⟨rfl, hs⟩
  | failing => exact .error ⟨rfl, rfl⟩

theorem reflects_push : Reflects k (k + 1) below below' push push := by
  intro root old old' s s' hs
  obtain ⟨top, hk, hi, hi'⟩ := hs.scopes
  exact .ok ⟨rfl, ⟨Scope.empty :: top, by simp [hk], by rw [hi]; rfl, by rw [hi']; rfl⟩, hs.reports⟩

theorem reflects_pop : Reflects (k + 1) k below below' pop pop := by
  intro root old old' s s' hs
  obtain ⟨top, hk, hi, hi'⟩ := hs.scopes
  cases top with
  | nil => cases hk
  | cons first top =>
    exact .ok ⟨rfl, ⟨top, by simpa using hk, by rw [hi]; rfl, by rw [hi']; rfl⟩, hs.reports⟩

theorem mirrors_inOwnScope {x x' : Check α} (h : Mirrors (k + 1) below below' x x') :
    Mirrors k below below' (inOwnScope x) (inOwnScope x') :=
  reflects_push.bind fun _ => h.bind fun _ => reflects_pop.bind fun _ => mirrors_pure

/-- The number of the scope on top counts the scopes below as well. -/
theorem Reflects.topNumber {f f' : Nat → Check α}
    (h : Reflects k l below below' (f (k + below.length)) (f' (k + below'.length))) :
    Reflects k l below below' (topNumber >>= f) (topNumber >>= f') := by
  intro root old old' s s' hs
  obtain ⟨top, hk, hi, hi'⟩ := hs.scopes
  have hn : s.scopes.depth - 1 = k + below.length := by simp [Scopes.depth, hi, hk]
  have hn' : s'.scopes.depth - 1 = k + below'.length := by simp [Scopes.depth, hi', hk]
  have h := h root old old' s s' hs
  rw [← hn, ← hn'] at h
  exact h

theorem mirrors_declare (name : String) (ty : Ty) (line : Option Coord) (place : Position) :
    Mirrors (k + 1) below below' (declare name ty line place) (declare name ty line place) := by
  intro root old old' s s' hs
  obtain ⟨top, hk, hi, hi'⟩ := hs.scopes
  cases top with
  | nil => cases hk
  | cons first top =>
    unfold declare Scopes.declare
    rw [hi, hi']
    simp only [List.cons_append]
    cases first.declare ⟨name, ty, line⟩ with
    | ok first => exact .ok ⟨rfl, ⟨first :: top, by simpa using hk, rfl, rfl⟩, hs.reports⟩
    | error existing => exact mirrors_report _ _ _ root old old' s s' hs

theorem mirrors_declareAll (line : Option Coord) (names : List Token) (tys : List Ty) :
    Mirrors (k + 1) below below' (declareAll line names tys) (declareAll line names tys) := by
  induction names generalizing tys with
  | nil => exact mirrors_pure
  | cons name names ih =>
    unfold declareAll
    exact (mirrors_declare _ _ _ _).bind fun _ => ih _

theorem mirrors_declareOutput (t : Tree) (ty : Ty) :
    Mirrors (k + 1) below below' (declareOutput t ty) (declareOutput t ty) :=
  mirrors_declareAll _ _ _

theorem mirrors_writtenType (types : Option Tree) :
    Mirrors k below below' (writtenType types) (writtenType types) := by
  unfold writtenType
  split
  · exact mirrors_pure
  · split
    · exact mirrors_pure
    · exact .reported fun _ => mirrors_pure

/-! ## Calls -/

theorem mirrors_arguments (callee : String) (parameters : List (String × Ty))
    (supplied : List Supplied) (place : Position) :
    Mirrors k below below' (arguments callee parameters supplied place)
      (arguments callee parameters supplied place) := by
  refine Reflects.bind (mirrors_forIn (fun given _ => ?_) _) fun _ => Reflects.bind
    (mirrors_forIn (fun p _ => ?_) _) fun _ => mirrors_pure
  · split
    · exact .reported fun _ => mirrors_pure
    · exact .ite (.reported fun _ => mirrors_pure) mirrors_pure
  · exact .ite (.reported fun _ => mirrors_pure) mirrors_pure

theorem mirrors_serviceArguments (service command : String) (expected : NameMap HubArgument)
    (supplied : List Supplied) (place : Position) :
    Mirrors k below below' (serviceArguments service command expected supplied place)
      (serviceArguments service command expected supplied place) := by
  refine Reflects.bind (mirrors_forIn (fun given _ => ?_) _) fun _ => Reflects.bind
    (mirrors_forIn (fun p _ => ?_) _) fun _ => mirrors_pure
  · split
    · exact .reported fun _ => mirrors_pure
    · exact .ite (.reported fun _ => mirrors_pure) mirrors_pure
  · exact .ite (.reported fun _ => mirrors_pure) mirrors_pure

theorem Env.Sees.commandCall (h : e.Sees e' below below') (service : String) (place : Position)
    (command : Option Token) (supplied : List Supplied) :
    Mirrors k below below' (commandCall e service place command supplied)
      (commandCall e' service place command supplied) := by
  unfold Check.commandCall
  rw [h.registry]
  refine (mirrors_useService service).bind fun _ => ?_
  split
  · refine (mirrors_service? _ _).bind fun known => ?_
    split
    · exact .reported fun _ => mirrors_pure
    · split
      · exact .reported fun _ => mirrors_pure
      · exact (mirrors_serviceArguments _ _ _ _ _).bind fun _ => .ite mirrors_pure mirrors_pure
  · exact mirrors_pure

theorem Env.Sees.eventCall (h : e.Sees e' below below') (service command : String) (event : Token)
    (supplied : List Supplied) :
    Mirrors k below below' (eventCall e service command event supplied)
      (eventCall e' service command event supplied) := by
  unfold Check.eventCall
  rw [h.registry]
  split
  · exact mirrors_pure
  · refine (mirrors_service? _ _).bind fun known => ?_
    split
    · exact mirrors_pure
    · split
      · exact .reported fun _ => mirrors_pure
      · exact (mirrors_serviceArguments _ _ _ _ _).bind fun _ => mirrors_pure

theorem Env.Sees.functionCall (h : e.Sees e' below below') (name : Option Token)
    (supplied : List Supplied) :
    Mirrors k below below' (functionCall e name supplied) (functionCall e' name supplied) := by
  unfold Check.functionCall
  rw [h.functions]
  split
  · exact mirrors_pure
  · split
    · exact .reported fun _ => mirrors_pure
    · exact (mirrors_arguments _ _ _ _).bind fun _ => mirrors_pure

theorem mirrors_mutationCall (subject : Ty) (name : Option Token) (supplied : List Supplied) :
    Mirrors k below below' (mutationCall subject name supplied)
      (mutationCall subject name supplied) := by
  unfold mutationCall
  split
  · exact mirrors_pure
  · split
    · exact .reported fun _ => mirrors_pure
    · exact .ite ((mirrors_arguments _ _ _ _).bind fun _ => mirrors_pure) mirrors_pure

/-! ## Types of operations -/

theorem mirrors_betweenType (parts : List Tree) (operands : List Ty) :
    Mirrors k below below' (betweenType parts operands) (betweenType parts operands) := by
  unfold betweenType
  split
  · exact mirrors_pure
  · dsimp only
    split
    · exact mirrors_pure
    · exact .reported fun _ => mirrors_pure

theorem mirrors_beforeType (parts : List Tree) (operands : List Ty) :
    Mirrors k below below' (beforeType parts operands) (beforeType parts operands) := by
  unfold beforeType
  split
  · exact mirrors_pure
  · dsimp only
    split
    · exact mirrors_pure
    · exact .reported fun _ => mirrors_pure

theorem mirrors_castType (parts : List Tree) (operands : List Ty) :
    Mirrors k below below' (castType parts operands) (castType parts operands) :=
  (mirrors_writtenType _).bind fun _ => .ite (.reported fun _ => mirrors_pure) mirrors_pure

theorem mirrors_fieldType (subject : Ty) (name : Token) :
    Mirrors k below below' (fieldType subject name) (fieldType subject name) := by
  unfold fieldType
  split
  · exact mirrors_pure
  · exact .reported fun _ => mirrors_pure

theorem mirrors_indexType (subject index : Ty) (place : Option Position) :
    Mirrors k below below' (indexType subject index place) (indexType subject index place) := by
  unfold indexType
  split
  · exact mirrors_pure
  · exact .reported fun _ => mirrors_pure

end StoryLang.Check
