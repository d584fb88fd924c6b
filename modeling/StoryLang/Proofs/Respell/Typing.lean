/-
Values that say the same are checked with the same result.

Checking looks at the kind of a keyword and not at its text, which shows in
reports only. So the types that are found are the same, and so are the
severities of what is reported.
-/
import StoryLang.Check.Value
import StoryLang.Proofs.Check.Paired.Value
import StoryLang.Proofs.Respell.Hoist

namespace StoryLang.Check

open StoryLang.Tree (Like LikeAll SameText Worded Heads)

/-- The states of two checks that found out the same, if in other words. -/
structure State.Same (s s' : State) : Prop where
  scopes : s'.scopes = s.scopes
  services : s'.services = s.services
  severities : s'.reports.map Diagnostic.severity = s.reports.map Diagnostic.severity

/-- Checks that find out the same. -/
abbrev Finds {α : Type} (A : α → α → Prop) (x x' : Check α) : Prop := Follows State.Same A x x'

/-- The arguments have the same name and the same type. -/
structure Supplied.Same (a a' : Supplied) : Prop where
  name : a'.name = a.name
  ty : a'.ty = a.ty

/-- Values that say the same, and their type. -/
structure Valued (out out' : Tree × Ty) : Prop where
  tree : out.1.Same out'.1
  ty : out'.2 = out.2

/-- Rows that say the same, with what starts as two other rows do, and what is found in them. -/
structure Rowed {β : Type} (B : β → β → Prop) (ps ps' : List Tree) (out out' : List Tree × β) :
    Prop where
  row : LikeAll Token.Same Worded out.1 out'.1
  head : ∀ H, Heads H ps ps' → Heads H out.1 out'.1
  found : B out.2 out'.2

variable {α β : Type} {e : Env} {t t' : Tree} {ps ps' : List Tree} {B : β → β → Prop}
  {P : Token → Prop} {g : Grammar}

/-! ## What is read of trees -/

theorem sameText_of_name {u u' : Token} (h : Token.Same u u') (hk : u.kind = .name) : SameText u u' :=
  Token.agrees_same.name _ _ h hk

theorem nameOf_same (h : LikeAll Token.Same Worded ps ps') :
    Option.Rel SameText (nameOf? ps) (nameOf? ps') := by
  have hfound := rel_find? (p := (·.kind = .name)) h.tokens
    fun u u' hu => by simp [hu.kind]
  unfold nameOf? tokensOf
  cases hn : (ps.filterMap Tree.asToken?).find? (·.kind = .name) with
  | none =>
    rw [hn] at hfound
    generalize (ps'.filterMap Tree.asToken?).find? (·.kind = .name) = found' at hfound ⊢
    cases hfound
    exact .none
  | some u =>
    have hk : u.kind = .name := by simpa using List.find?_some hn
    rw [hn] at hfound
    generalize (ps'.filterMap Tree.asToken?).find? (·.kind = .name) = found' at hfound ⊢
    cases hfound with
    | some hu => exact .some (sameText_of_name hu hk)

/-- Nodes with a text that is read start with the same one. -/
theorem firstToken_same {r : Rule} (h : Worded r ps ps') (hr : r.isNamed = true) :
    ∃ u u', Tree.firstTokenOf? ps = some u ∧ Tree.firstTokenOf? ps' = some u' ∧ SameText u u' := by
  obtain ⟨u, _, u', _, rfl, rfl, hu⟩ := h.head (.inl hr)
  exact ⟨u, u', rfl, rfl, hu⟩

theorem firstToken_of_isA {r : Rule} (h : t.Same t') (ht : t.isA r = true) (hr : r.isNamed = true) :
    ∃ u u', t.firstToken? = some u ∧ t'.firstToken? = some u' ∧ SameText u u' := by
  obtain ⟨line, ps, rfl⟩ := Tree.isA_iff.1 ht
  cases h with
  | node row parts => exact firstToken_same row hr

/-- The nodes of a rule that are found first. -/
theorem find_same (h : LikeAll Token.Same Worded ps ps') (r : Rule) :
    (ps.find? (·.isA r) = none ∧ ps'.find? (·.isA r) = none) ∨
      ∃ t t', ps.find? (·.isA r) = some t ∧ ps'.find? (·.isA r) = some t' ∧ t.isA r = true ∧
        t.Same t' := by
  have hfound := rel_find? (p := (·.isA r)) h (Like.isA r)
  cases hn : ps.find? (·.isA r) with
  | none =>
    rw [hn] at hfound
    generalize ps'.find? (·.isA r) = found' at hfound
    cases hfound
    exact .inl ⟨rfl, rfl⟩
  | some t =>
    have ht : t.isA r = true := List.find?_some hn
    rw [hn] at hfound
    generalize ps'.find? (·.isA r) = found' at hfound
    cases hfound with
    | some hu => exact .inr ⟨t, _, rfl, rfl, ht, hu⟩

mutual

/-- Types that say the same spell the same. -/
theorem spelled_same : ∀ t t' : Tree, t.Same t' → t.isA .types = true → spelled t' = spelled t
  | .token _, _, _, ht => by simp [Tree.isA, Tree.rule?] at ht
  | .node r l ps, .node _ _ ps', .node row parts, ht => by
    obtain rfl : r = .types := by simpa [Tree.isA, Tree.rule?] using ht
    obtain ⟨u, ts, u', ts', rfl, rfl, hu⟩ := row.head (.inl rfl)
    have hu : u'.literal = u.literal := hu
    have hts := spelledParts_same ts ts' (by cases parts; assumption) (row.types rfl)
    simp only [spelled, spelledParts, Tree.firstTokenOf?, Tree.firstToken?, Option.some_or, hu, hts]

theorem spelledParts_same : ∀ ps ps' : List Tree, LikeAll Token.Same Worded ps ps' →
    (∀ p ∈ ps, p.isA .types = true) → spelledParts ps' = spelledParts ps
  | [], _, .nil, _ => rfl
  | .token _ :: _, _, _, h => by simp [Tree.isA, Tree.rule?] at h
  | .node r l ps :: ts, .node _ _ ps' :: ts', .cons first rest, h => by
    have hfirst := spelled_same (.node r l ps) _ first (h _ List.mem_cons_self)
    have hrest := spelledParts_same ts ts' rest fun p hp => h p (List.mem_cons_of_mem _ hp)
    cases first
    simp only [spelledParts, hfirst, hrest]

end

/-! ## Steps of a check -/

theorem finds_report (code : Code) (args args' : List String) (place place' : Option Position) :
    Finds Eq (report code args place) (report code args' place') := by
  intro s s' a t hs hx
  obtain ⟨rfl, rfl⟩ := Prod.mk.inj (Except.ok.inj hx)
  refine ⟨_, _, rfl, rfl, ⟨hs.scopes, hs.services, ?_⟩⟩
  cases place <;> cases place' <;>
    simp [Diagnostic.severity, Diagnostic.ofCode, Diagnostic.placed, hs.severities]

theorem finds_lookup (name : String) : Finds Eq (lookup e name) (lookup e name) := by
  intro s s' a t hs hx
  obtain ⟨rfl, rfl⟩ := Prod.mk.inj (Except.ok.inj hx)
  refine ⟨_, _, rfl, ?_, hs⟩
  simp only [hs.scopes]

theorem finds_push : Finds Eq push push := by
  intro s s' a t hs hx
  obtain ⟨rfl, rfl⟩ := Prod.mk.inj (Except.ok.inj hx)
  exact ⟨_, _, rfl, rfl, congrArg Scopes.push hs.scopes, hs.services, hs.severities⟩

theorem finds_pop : Finds Eq pop pop := by
  intro s s' a t hs hx
  obtain ⟨rfl, rfl⟩ := Prod.mk.inj (Except.ok.inj hx)
  exact ⟨_, _, rfl, rfl, congrArg Scopes.dropTop hs.scopes, hs.services, hs.severities⟩

theorem finds_topNumber : Finds Eq topNumber topNumber := by
  intro s s' a t hs hx
  obtain ⟨rfl, rfl⟩ := Prod.mk.inj (Except.ok.inj hx)
  exact ⟨_, _, rfl, by rw [hs.scopes], hs⟩

theorem finds_useService (name : String) : Finds Eq (useService name) (useService name) := by
  intro s s' a t hs hx
  obtain ⟨rfl, rfl⟩ := Prod.mk.inj (Except.ok.inj hx)
  exact ⟨_, _, rfl, rfl, hs.scopes, congrArg (·.insert name ()) hs.services, hs.severities⟩

theorem finds_declare (name : String) (ty : Ty) (line : Option Coord) (place place' : Position) :
    Finds Eq (declare name ty line place) (declare name ty line place') := by
  intro s s' a t hs hx
  unfold declare at hx ⊢
  rw [hs.scopes]
  split at hx
  · obtain ⟨rfl, rfl⟩ := Prod.mk.inj (Except.ok.inj hx)
    exact ⟨_, _, rfl, rfl, rfl, hs.services, hs.severities⟩
  · exact finds_report _ _ _ _ _ s s' a t hs hx

theorem finds_service (r : Registry) (name : String) :
    Finds Eq (service? r name) (service? r name) := by
  intro s s' a t hs hx
  unfold service? at hx ⊢
  split at hx
  · obtain ⟨rfl, rfl⟩ := Prod.mk.inj (Except.ok.inj hx)
    exact ⟨_, _, rfl, rfl, hs⟩
  · cases hx

theorem finds_inOwnScope {A : α → α → Prop} {x x' : Check α} (h : Finds A x x') :
    Finds A (inOwnScope x) (inOwnScope x') :=
  finds_push.bindSame fun _ => h.bind fun _ _ ha => finds_pop.bindSame fun _ => .pure ha

theorem finds_writtenType {types types' : Option Tree} (h : Option.Rel Tree.Same types types')
    (ht : ∀ t ∈ types, t.isA .types = true) : Finds Eq (writtenType types) (writtenType types') := by
  cases h with
  | none => exact .pure rfl
  | @some t t' h =>
    unfold writtenType
    simp only [spelled_same t t' h (ht t rfl)]
    split
    · exact .pure rfl
    · exact (finds_report _ _ _ _ _).bindSame fun _ => .pure rfl

theorem spelledOrAny_same {types types' : Option Tree} (h : Option.Rel Tree.Same types types')
    (ht : ∀ t ∈ types, t.isA .types = true) : spelledOrAny types' = spelledOrAny types := by
  cases h with
  | none => rfl
  | @some t t' h => simp only [spelledOrAny, spelled_same t t' h (ht t rfl)]

theorem finds_forIn {L : α → α → Prop} {l l' : List α}
    {f f' : α → PUnit → Check (ForInStep PUnit)} (h : List.Forall₂ L l l')
    (hf : ∀ a a' u, L a a' → Finds Eq (f a u) (f' a' u)) :
    ∀ u, Finds Eq (forIn l u f) (forIn l' u f') := by
  induction h with
  | nil => exact fun _ => .pure rfl
  | cons ha _ ih =>
    intro u
    rw [List.forIn_cons, List.forIn_cons]
    refine (hf _ _ u ha).bindSame fun step => ?_
    cases step with
    | done u => exact .pure rfl
    | yield u => exact ih u

/-! ## Calls -/

theorem any_supplied {given given' : List Supplied} (h : List.Forall₂ Supplied.Same given given')
    (name : String) : given'.any (·.name = name) = given.any (·.name = name) :=
  rel_any h fun a a' ha => by simp [ha.name]

/-- A report, if there is one, before the rest. -/
theorem finds_reportIf {A : α → α → Prop} {c : Prop} [Decidable c] (code : Code)
    (args args' : List String) (place place' : Option Position) {x x' : Check α} (h : Finds A x x') :
    Finds A (if c then report code args place >>= fun _ => x else x)
      (if c then report code args' place' >>= fun _ => x' else x') :=
  .ite ((finds_report _ _ _ _ _).bindSame fun _ => h) h

theorem finds_arguments (callee : String) (parameters : List (String × Ty))
    {given given' : List Supplied} (h : List.Forall₂ Supplied.Same given given')
    (place place' : Position) :
    Finds Eq (arguments callee parameters given place) (arguments callee parameters given' place') := by
  unfold arguments
  refine (finds_forIn h (fun a a' _ ha => ?_) _).bindSame fun _ =>
    (finds_forIn (List.forall₂_same.2 fun _ _ => rfl) (fun p _ _ hp => ?_) _).bindSame fun _ => .pure rfl
  · rw [ha.name, ha.ty]
    split
    · exact (finds_report _ _ _ _ _).bindSame fun _ => .pure rfl
    · exact finds_reportIf _ _ _ _ _ (.pure rfl)
  · subst hp
    simp only [any_supplied h]
    exact finds_reportIf _ _ _ _ _ (.pure rfl)

theorem finds_serviceArguments (service command : String) (expected : NameMap HubArgument)
    {given given' : List Supplied} (h : List.Forall₂ Supplied.Same given given')
    (place place' : Position) :
    Finds Eq (serviceArguments service command expected given place)
      (serviceArguments service command expected given' place') := by
  unfold serviceArguments
  refine (finds_forIn h (fun a a' _ ha => ?_) _).bindSame fun _ =>
    (finds_forIn (List.forall₂_same.2 fun _ _ => rfl) (fun p _ _ hp => ?_) _).bindSame fun _ => .pure rfl
  · rw [ha.name, ha.ty]
    split
    · exact (finds_report _ _ _ _ _).bindSame fun _ => .pure rfl
    · exact finds_reportIf _ _ _ _ _ (.pure rfl)
  · subst hp
    simp only [any_supplied h]
    exact finds_reportIf _ _ _ _ _ (.pure rfl)

/-- A report that ends a check, with any type. -/
theorem finds_any (code : Code) (args args' : List String) (place place' : Option Position) :
    Finds Eq (do report code args place; return Ty.any) (do report code args' place'; return Ty.any) :=
  (finds_report _ _ _ _ _).bindSame fun _ => .pure rfl

variable {given given' : List Supplied} {name name' : Option Token}

theorem finds_commandCall (service : String) (place place' : Position)
    (hn : Option.Rel SameText name name') (h : List.Forall₂ Supplied.Same given given') :
    Finds Eq (commandCall e service place name given) (commandCall e service place' name' given') := by
  unfold commandCall
  refine (finds_useService service).bindSame fun _ => ?_
  cases hn with
  | none => exact .pure rfl
  | @some command command' hc =>
    cases e.registry with
    | none => exact .pure rfl
    | some registry =>
      have hc : command'.literal = command.literal := hc
      dsimp only
      rw [hc]
      refine (finds_service registry service).bindSame fun known => ?_
      split
      · exact finds_any _ _ _ _ _
      · split
        · exact finds_any _ _ _ _ _
        · exact (finds_serviceArguments _ _ _ h _ _).bindSame fun _ => .ite (.pure rfl) (.pure rfl)

theorem finds_eventCall (service command : String) {event event' : Token} (he : SameText event event')
    (h : List.Forall₂ Supplied.Same given given') :
    Finds Eq (eventCall e service command event given) (eventCall e service command event' given') := by
  unfold eventCall
  cases e.registry with
  | none => exact .pure rfl
  | some registry =>
    have he : event'.literal = event.literal := he
    dsimp only
    rw [he]
    refine (finds_service registry service).bindSame fun known => ?_
    split
    · exact .pure rfl
    · split
      · exact finds_any _ _ _ _ _
      · exact (finds_serviceArguments _ _ _ h _ _).bindSame fun _ => .pure rfl

theorem finds_functionCall (hn : Option.Rel SameText name name')
    (h : List.Forall₂ Supplied.Same given given') :
    Finds Eq (functionCall e name given) (functionCall e name' given') := by
  cases hn with
  | none => exact .pure rfl
  | @some called called' hc =>
    have hc : called'.literal = called.literal := hc
    unfold functionCall
    dsimp only
    rw [hc]
    split
    · exact finds_any _ _ _ _ _
    · exact (finds_arguments _ _ h _ _).bindSame fun _ => .pure rfl

theorem finds_mutationCall (subject : Ty) (hn : Option.Rel SameText name name')
    (h : List.Forall₂ Supplied.Same given given') :
    Finds Eq (mutationCall subject name given) (mutationCall subject name' given') := by
  cases hn with
  | none => exact .pure rfl
  | @some called called' hc =>
    have hc : called'.literal = called.literal := hc
    unfold mutationCall
    dsimp only
    rw [hc]
    split
    · exact finds_any _ _ _ _ _
    · exact .ite ((finds_arguments _ _ h _ _).bindSame fun _ => .pure rfl) (.pure rfl)

/-! ## Types of operations -/

theorem numberType_same (h : LikeAll Token.Same Worded ps ps') : numberType ps' = numberType ps := by
  cases h with
  | nil => rfl
  | cons hfirst hrest =>
    cases hrest with
    | nil =>
      cases hfirst with
      | token related => simp only [numberType, related.kind]
      | node => rfl
    | cons => cases hfirst <;> rfl

theorem finds_betweenType (h : LikeAll Token.Same Worded ps ps') (tys : List Ty) :
    Finds Eq (betweenType ps tys) (betweenType ps' tys) := by
  have hts := h.tokens
  unfold betweenType tokensOf
  generalize ps.filterMap Tree.asToken? = us, ps'.filterMap Tree.asToken? = us' at hts
  cases hts with
  | nil => exact .pure rfl
  | cons hu _ =>
    dsimp only
    rw [hu.kind]
    split
    · exact .pure rfl
    · exact finds_any _ _ _ _ _

theorem finds_beforeType (h : LikeAll Token.Same Worded ps ps') (tys : List Ty) :
    Finds Eq (beforeType ps tys) (beforeType ps' tys) := by
  have hts := h.tokens
  unfold beforeType tokensOf
  generalize ps.filterMap Tree.asToken? = us, ps'.filterMap Tree.asToken? = us' at hts
  cases hts with
  | nil => exact .pure rfl
  | cons hu _ =>
    dsimp only
    rw [hu.kind]
    split
    · exact .pure rfl
    · exact finds_any _ _ _ _ _

theorem finds_castType (h : LikeAll Token.Same Worded ps ps') (tys : List Ty) :
    Finds Eq (castType ps tys) (castType ps' tys) := by
  unfold castType
  refine (finds_writtenType (rel_find? h (Like.isA .types)) fun t ht => List.find?_some ht).bindSame
    fun target => ?_
  exact finds_reportIf _ _ _ _ _ (.pure rfl)

theorem finds_fieldType (subject : Ty) {field field' : Token} (h : SameText field field') :
    Finds Eq (fieldType subject field) (fieldType subject field') := by
  have h : field'.literal = field.literal := h
  unfold fieldType
  rw [h]
  split
  · exact .pure rfl
  · exact finds_any _ _ _ _ _

theorem finds_indexType (subject index : Ty) (place place' : Option Position) :
    Finds Eq (indexType subject index place) (indexType subject index place') := by
  unfold indexType
  split
  · exact .pure rfl
  · exact finds_any _ _ _ _ _

/-! ## Rows -/

theorem Rowed.nil {b b' : β} (h : B b b') : Rowed B [] [] ([], b) ([], b') :=
  ⟨.nil, fun _ h => h, h⟩

theorem Rowed.same {b b' : β} (hp : LikeAll Token.Same Worded ps ps') (h : B b b') :
    Rowed B ps ps' (ps, b) (ps', b') :=
  ⟨hp, fun _ h => h, h⟩

theorem Rowed.token {u u' : Token} {ts ts' : List Tree} {b b' : β} (hu : Token.Same u u')
    (hts : LikeAll Token.Same Worded ts ts') (h : B b b') :
    Rowed B (.token u :: ps) (.token u' :: ps') (.token u :: ts, b) (.token u' :: ts', b') where
  row := .cons (.token hu) hts
  head H hh := by
    obtain ⟨_, _, _, _, hps, hps', hH⟩ := hh
    obtain rfl := Tree.token.inj (List.cons.inj hps).1
    obtain rfl := Tree.token.inj (List.cons.inj hps').1
    exact ⟨_, _, _, _, rfl, rfl, hH⟩
  found := h

theorem Rowed.node {r : Rule} {l : Option Coord} {inner : List Tree} {ts ts' : List Tree} {b b' : β}
    (ht : t.Same t') (hts : LikeAll Token.Same Worded ts ts') (h : B b b') :
    Rowed B (.node r l inner :: ps) ps' (t :: ts, b) (t' :: ts', b') where
  row := .cons ht hts
  head H hh := by
    obtain ⟨_, _, _, _, hps, -⟩ := hh
    simp at hps
  found := h

/-- A node with a new row of parts, which starts as the old one does. -/
theorem worded_of_heads {r : Rule} {qs qs' : List Tree} (h : Worded r ps ps') (hr : r ≠ .types)
    (hh : Heads SameText ps ps' → Heads SameText qs qs') : Worded r qs qs' where
  head hn := hh (h.head hn)
  types ht := absurd ht hr

/-- What is found in a node for arguments, if there is one. -/
structure Given (out out' : Option Tree × List Supplied) : Prop where
  tree : Option.Rel Tree.Same out.1 out'.1
  supplied : List.Forall₂ Supplied.Same out.2 out'.2

/-- Checks of rows of parts find out the same, whichever way they are followed. -/
structure RowFinds (e : Env) (ps ps' : List Tree) : Prop where
  firsts : ∀ n, Finds (Rowed Eq ps ps') (firsts e n ps) (firsts e n ps')
  entries : (∀ p ∈ ps, p.isA .types = false) → Finds (Rowed Eq ps ps') (entries e ps) (entries e ps')
  fragments : (∀ p ∈ ps, p.isA .types = false) → ∀ ty,
    Finds (Rowed Eq ps ps') (fragments e ty ps) (fragments e ty ps')
  arguments : Finds Given (argumentsOf e ps) (argumentsOf e ps')
  supplied : (∀ p ∈ ps, p.isA .argument = true) → ∀ seen,
    Finds (Rowed (List.Forall₂ Supplied.Same) ps ps') (suppliedBy e seen ps) (suppliedBy e seen ps')

/-- Checks of a value and of one that says the same find out the same. -/
structure ValueFinds (e : Env) (t : Tree) : Prop where
  value : ∀ t', t.Same t' → Finds Valued (value e t) (value e t')
  rows : ∀ ps', LikeAll Token.Same Worded t.parts ps' → RowFinds e t.parts ps'

theorem RowFinds.nil : RowFinds e [] [] where
  firsts n := by cases n <;> exact .pure (.nil rfl)
  entries _ := .pure (.nil rfl)
  fragments _ _ := .pure (.nil rfl)
  arguments := .pure ⟨.none, .nil⟩
  supplied _ _ := .pure (.nil .nil)

theorem RowFinds.token {u u' : Token} (hu : Token.Same u u') (h : RowFinds e ps ps') :
    RowFinds e (.token u :: ps) (.token u' :: ps') where
  firsts n := by
    unfold Check.firsts
    exact (h.firsts n).bind fun _ _ ho => .pure (.token hu ho.row ho.found)
  entries hno := by
    unfold Check.entries
    exact (h.entries (List.forall_mem_cons.1 hno).2).bind fun _ _ ho =>
      .pure (.token hu ho.row ho.found)
  fragments hno ty := by
    unfold Check.fragments
    exact (h.fragments (List.forall_mem_cons.1 hno).2 ty).bind fun _ _ ho =>
      .pure (.token hu ho.row ho.found)
  arguments := by
    unfold argumentsOf
    exact h.arguments
  supplied hno _ := nomatch (List.forall_mem_cons.1 hno).1

theorem RowFinds.node {r : Rule} {l : Option Coord} {qs qs' : List Tree}
    (hf : Formed P g .plain (.node r l qs)) (ht : ValueFinds e (.node r l qs))
    (row : Worded r qs qs') (parts : LikeAll Token.Same Worded qs qs')
    (hp : LikeAll Token.Same Worded ps ps') (h : RowFinds e ps ps') :
    RowFinds e (.node r l qs :: ps) (.node r l qs' :: ps') where
  firsts n := by
    cases n with
    | zero => exact .pure (.same (.cons (.node row parts) hp) rfl)
    | succ n =>
      unfold Check.firsts
      refine (ht.value _ (.node row parts)).bind fun _ _ ho => (h.firsts n).bind fun _ _ hs => ?_
      exact .pure (.node ho.tree hs.row (by rw [ho.ty, hs.found]))
  entries hno := by
    obtain ⟨hr, hrest⟩ := List.forall_mem_cons.1 hno
    unfold Check.entries
    refine ((ht.rows _ parts).firsts 2).bind fun _ _ ho => (h.entries hrest).bind fun _ _ hs => ?_
    refine .pure (.node (.node (worded_of_heads row (by simpa [Tree.isA, Tree.rule?] using hr) (ho.head _)) ho.row) hs.row ?_)
    rw [← ho.found, ← hs.found]
  fragments hno ty := by
    obtain ⟨hr, hrest⟩ := List.forall_mem_cons.1 hno
    have rest : ∀ {inner inner' : List Tree} (ty : Ty),
        (Tree.node r l inner).Same (.node r l inner') →
        Finds (Rowed Eq (.node r l qs :: ps) (.node r l qs' :: ps'))
          (Check.fragments e ty ps >>= fun out => pure (.node r l inner :: out.1, out.2))
          (Check.fragments e ty ps' >>= fun out => pure (.node r l inner' :: out.1, out.2)) :=
      fun ty hn => (h.fragments hrest ty).bind fun _ _ hs => .pure (.node hn hs.row hs.found)
    have hdot : (tokensOf qs').any (·.kind = .symbol .dot) = (tokensOf qs).any (·.kind = .symbol .dot) :=
      rel_any parts.tokens fun u u' hu => by simp [hu.kind]
    unfold Check.fragments
    rw [hdot]
    split
    · have hname := nameOf_same parts
      generalize nameOf? qs = name, nameOf? qs' = name' at hname
      cases hname with
      | none => exact rest ty (.node row parts)
      | some hu => exact (finds_fieldType ty hu).bindSame fun ty => rest ty (.node row parts)
    · refine ((ht.rows _ parts).firsts 1).bind ?_
      rintro ⟨inner, tys⟩ ⟨inner', tys'⟩ ho
      obtain rfl : tys = tys' := ho.found
      refine (finds_indexType _ _ _ _).bindSame fun ty => rest ty ?_
      exact .node (worded_of_heads row (by simpa [Tree.isA, Tree.rule?] using hr) (ho.head _)) ho.row
  arguments := by
    by_cases hr : r = .arguments
    · subst hr
      have hno : ∀ p ∈ qs, p.isA .argument = true := by
        cases hf with
        | node content _ _ =>
          cases content with
          | arguments each => exact each
      unfold argumentsOf
      exact ((ht.rows _ parts).supplied hno []).bind fun _ _ ho =>
        .pure ⟨.some (.node (.other ⟨rfl, by simp⟩ _ _) ho.row), ho.found⟩
    · have hskip : ∀ inner others, argumentsOf e (.node r l inner :: others) = argumentsOf e others := by
        intro inner others
        cases r <;> first | exact absurd rfl hr | rfl
      rw [hskip, hskip]
      exact h.arguments
  supplied hno seen := by
    obtain ⟨hr, hrest⟩ := List.forall_mem_cons.1 hno
    obtain rfl : r = .argument := by simpa [Tree.isA, Tree.rule?] using hr
    obtain ⟨u, u', hu, hu', hsame⟩ := firstToken_same row rfl
    have hsame : u'.literal = u.literal := hsame
    unfold suppliedBy
    simp only [hu, hu', hsame]
    refine finds_reportIf _ _ _ _ _ ?_
    refine ((ht.rows _ parts).firsts 1).bind fun out out' ho => ?_
    refine (h.supplied hrest _).bind fun others others' hs => .pure ?_
    refine .node (.node (worded_of_heads row (by simp) (ho.head _)) ho.row) hs.row ?_
    exact .cons ⟨rfl, by rw [ho.found]⟩ hs.found

theorem RowFinds.of (hf : ∀ p ∈ ps, Formed P g .plain p) (h : ∀ p ∈ ps, ValueFinds e p)
    (hp : LikeAll Token.Same Worded ps ps') : RowFinds e ps ps' := by
  induction hp with
  | nil => exact .nil
  | cons hfirst hrest ih =>
    obtain ⟨hformed, hfs⟩ := List.forall_mem_cons.1 hf
    obtain ⟨hown, hs⟩ := List.forall_mem_cons.1 h
    cases hfirst with
    | token hu => exact (ih hfs hs).token hu
    | node row parts => exact .node hformed hown row parts hrest (ih hfs hs)

/-! ## Mutations -/

theorem finds_links (hf : ∀ p ∈ ps, Formed P g .plain p) (h : ∀ p ∈ ps, ValueFinds e p)
    (hp : LikeAll Token.Same Worded ps ps') (ty : Ty) :
    Finds (Rowed Eq ps ps') (links e ty ps) (links e ty ps') := by
  induction hp generalizing ty with
  | nil => exact .pure (.nil rfl)
  | @cons p p' ps ps' hfirst hrest ih =>
    obtain ⟨hformed, hfs⟩ := List.forall_mem_cons.1 hf
    obtain ⟨hown, hs⟩ := List.forall_mem_cons.1 h
    have skip : ∀ ty, Finds (Rowed Eq (p :: ps) (p' :: ps'))
        (links e ty ps >>= fun out => pure (p :: out.1, out.2))
        (links e ty ps' >>= fun out => pure (p' :: out.1, out.2)) := by
      refine fun ty => (ih hfs hs ty).bind fun out out' ho => .pure ?_
      cases hfirst with
      | token hu => exact .token hu ho.row ho.found
      | node row parts => exact .node (.node row parts) ho.row ho.found
    cases hfirst with
    | token hu => exact skip ty
    | @node r l qs qs' row parts =>
      by_cases hr : r = .mutationFragment
      · subst hr
        unfold links
        refine ((hown.rows _ parts).arguments).bind fun out out' ho => ?_
        refine (finds_mutationCall ty (nameOf_same parts) ho.supplied).bindSame fun ty => ?_
        refine (ih hfs hs ty).bind fun rest rest' hr => .pure (.node ?_ hr.row hr.found)
        exact .node (.other ⟨rfl, by simp⟩ _ _) (LikeAll.putFirst parts ho.tree _)
      · have hskip : ∀ inner others, links e ty (.node r l inner :: others) =
            links e ty others >>= fun out => pure (.node r l inner :: out.1, out.2) := by
          intro inner others
          cases r <;> first | exact absurd rfl hr | rfl
        rw [hskip, hskip]
        exact skip ty

theorem asMutation_same {subject subject' : Tree} (hs : subject.Same subject')
    (h : LikeAll Token.Same Worded ps ps') :
    LikeAll Token.Same Worded (asMutation subject ps) (asMutation subject' ps') := by
  have hlink : ∀ t t' : Tree, t.Same t' → inLink t' = inLink t := by
    intro t t' ht
    rw [inLink, inLink, Like.isNode _ _ ht, Like.isA _ _ _ ht]
  refine .cons hs (.cons (.node (.other ⟨rfl, by simp⟩ _ _) (rel_filter h hlink)) (rel_filter h ?_))
  exact fun t t' ht => by rw [hlink t t' ht]

theorem finds_mutation (hf : ∀ p ∈ ps, Formed P g .plain p) (h : ∀ p ∈ ps, ValueFinds e p)
    (hp : LikeAll Token.Same Worded ps ps') :
    Finds (Rowed Eq ps ps') (mutation e ps) (mutation e ps') := by
  induction hp with
  | nil => exact .pure (.nil rfl)
  | cons hfirst hrest ih =>
    obtain ⟨-, hfs⟩ := List.forall_mem_cons.1 hf
    obtain ⟨hown, hs⟩ := List.forall_mem_cons.1 h
    cases hfirst with
    | token hu =>
      unfold mutation
      exact (ih hfs hs).bind fun _ _ ho => .pure (.token hu ho.row ho.found)
    | node row parts =>
      unfold mutation
      refine (hown.value _ (.node row parts)).bind ?_
      rintro ⟨t, ty⟩ ⟨t', ty'⟩ ho
      obtain rfl : ty' = ty := ho.ty
      exact (finds_links hfs hs hrest _).bind fun _ _ hl => .pure (.node ho.tree hl.row hl.found)

/-- Rows that say the same, with the same type. -/
def RowTyped (out out' : List Tree × Ty) : Prop :=
  LikeAll Token.Same Worded out.1 out'.1 ∧ out'.2 = out.2

theorem finds_callAsMutation (hf : ∀ p ∈ ps, Formed P g .plain p) (h : ∀ p ∈ ps, ValueFinds e p)
    (hp : LikeAll Token.Same Worded ps ps') :
    Finds RowTyped (callAsMutation e ps) (callAsMutation e ps') := by
  cases hp with
  | nil => exact .pure ⟨.nil, rfl⟩
  | cons hfirst hrest =>
    obtain ⟨-, hfs⟩ := List.forall_mem_cons.1 hf
    obtain ⟨hown, hs⟩ := List.forall_mem_cons.1 h
    cases hfirst with
    | token hu =>
      unfold callAsMutation
      exact (finds_links hfs hs hrest _).bind fun _ _ hl =>
        .pure ⟨asMutation_same (.token hu) hl.row, hl.found.symm⟩
    | node row parts =>
      unfold callAsMutation
      refine (hown.value _ (.node row parts)).bind ?_
      rintro ⟨subject, ty⟩ ⟨subject', ty'⟩ ho
      obtain rfl : ty' = ty := ho.ty
      refine (RowFinds.of hfs hs hrest).arguments.bind fun given given' hg => ?_
      refine (finds_mutationCall _ (nameOf_same hrest) hg.supplied).bindSame fun ty => ?_
      refine (finds_links hfs hs hrest _).bind fun _ _ hl => .pure ?_
      exact ⟨asMutation_same ho.tree (LikeAll.putFirst hl.row hg.tree _), hl.found.symm⟩

/-! ## Values -/

theorem value_finds (h : Formed P g .plain t) : ValueFinds e t := by
  induction h with
  | token u =>
    refine ⟨fun t' ht => ?_, fun ps' hp => ?_⟩
    · cases ht with
      | token hu => exact .pure ⟨.token hu, rfl⟩
    · cases hp
      exact .nil
  | @node rule line ps content own parts ih =>
    refine ⟨fun t' ht => ?_, fun ps' hp => .of parts ih hp⟩
    cases ht with
    | @node _ _ _ ps' row hp =>
    have rows : RowFinds e ps ps' := .of parts ih hp
    -- a node with other parts
    have made : ∀ {r : Rule} {qs qs' : List Tree} {ty ty' : Ty}, r.isNamed = false ∧ r ≠ .string →
        LikeAll Token.Same Worded qs qs' → ty' = ty →
          Valued (.node r line qs, ty) (.node r line qs', ty') :=
      fun hr hq hty => ⟨.node (.other hr _ _) hq, hty⟩
    cases rule with
    | number =>
      unfold value
      rw [numberType_same hp]
      exact .pure (made ⟨rfl, by simp⟩ hp rfl)
    | list =>
      unfold value
      rw [hp.length_eq]
      refine (rows.firsts _).bind fun out out' ho => .pure (made ⟨rfl, by simp⟩ ho.row ?_)
      rw [ho.found]
    | map =>
      have hno : ∀ p ∈ ps, p.isA .types = false := by
        cases content with
        | map each =>
          simp only [List.cons_append, List.forall_mem_cons, List.forall_mem_append]
          exact ⟨rfl, fun p hp => Tree.isA_ne (each p hp) (by simp), rfl, by simp⟩
      unfold value
      refine (rows.entries hno).bind fun out out' ho => .pure (made ⟨rfl, by simp⟩ ho.row ?_)
      rw [ho.found]
    | path =>
      have hno : ∀ p ∈ ps, p.isA .types = false := by
        cases content with
        | path _ each =>
          exact List.forall_mem_cons.2 ⟨rfl, fun p hp => Tree.isA_ne (each p hp) (by simp)⟩
      obtain ⟨u, u', hu, hu', hsame⟩ := firstToken_same row rfl
      have hsame : u'.literal = u.literal := hsame
      unfold value
      simp only [hu, hu', hsame]
      refine (finds_lookup _).bindSame fun found => ?_
      split
      · exact (finds_report _ _ _ _ _).bindSame fun _ => .pure ⟨.node row hp, rfl⟩
      · exact (rows.fragments hno _).bind fun _ _ ho =>
          .pure ⟨.node (worded_of_heads row (by simp) (ho.head _)) ho.row, ho.found.symm⟩
    | binaryExpression =>
      unfold value
      refine (rows.firsts _).bind ?_
      rintro ⟨qs, tys⟩ ⟨qs', tys'⟩ ho
      obtain rfl : tys = tys' := ho.found
      exact (finds_betweenType ho.row _).bindSame fun _ => .pure (made ⟨rfl, by simp⟩ ho.row rfl)
    | unaryExpression =>
      unfold value
      refine (rows.firsts _).bind ?_
      rintro ⟨qs, tys⟩ ⟨qs', tys'⟩ ho
      obtain rfl : tys = tys' := ho.found
      exact (finds_beforeType ho.row _).bindSame fun _ => .pure (made ⟨rfl, by simp⟩ ho.row rfl)
    | cast =>
      unfold value
      refine (rows.firsts _).bind ?_
      rintro ⟨qs, tys⟩ ⟨qs', tys'⟩ ho
      obtain rfl : tys = tys' := ho.found
      exact (finds_castType ho.row _).bindSame fun _ => .pure (made ⟨rfl, by simp⟩ ho.row rfl)
    | expressionStatement =>
      unfold value
      refine (rows.firsts _).bind fun out out' ho => .pure (made ⟨rfl, by simp⟩ ho.row ?_)
      rw [ho.found]
    | mutation =>
      unfold value
      exact (finds_mutation parts ih hp).bind fun _ _ ho =>
        .pure (made ⟨rfl, by simp⟩ ho.row ho.found.symm)
    | functionCall =>
      unfold value
      refine rows.arguments.bind fun _ _ hg => ?_
      exact (finds_functionCall (nameOf_same hp) hg.supplied).bindSame fun _ =>
        .pure (made ⟨rfl, by simp⟩ (LikeAll.putFirst hp hg.tree _) rfl)
    | serviceCall =>
      have whole : Finds Valued (pure (.node .serviceCall line ps, .any))
          (pure (.node .serviceCall line ps', .any)) := .pure ⟨.node row hp, rfl⟩
      have alone : Finds Valued
          (argumentsOf e ps >>= fun out =>
            pure (.node .serviceCall line (Tree.putFirst .arguments out.1 ps), .any))
          (argumentsOf e ps' >>= fun out =>
            pure (.node .serviceCall line (Tree.putFirst .arguments out.1 ps'), .any)) :=
        rows.arguments.bind fun _ _ hg => .pure (made ⟨rfl, by simp⟩ (LikeAll.putFirst hp hg.tree _) rfl)
      unfold value
      rcases find_same hp .path with ⟨hn, hn'⟩ | ⟨path, path', hn, hn', hpath, hlike⟩
      · simp only [hn, hn']
        exact whole
      · obtain ⟨u, u', hu, hu', hsame⟩ := firstToken_of_isA hlike hpath rfl
        have hsame : u'.literal = u.literal := hsame
        have hdot : path'.parts.any (·.isA .pathFragment) = path.parts.any (·.isA .pathFragment) :=
          rel_any hlike.parts (Like.isA .pathFragment)
        simp only [hn, hn', hu, hu', hsame, hdot]
        refine (finds_lookup _).bindSame fun found => ?_
        split
        · split
          · exact (finds_report _ _ _ _ _).bindSame fun _ => alone
          · refine rows.arguments.bind fun _ _ hg => ?_
            exact (finds_commandCall _ _ _ (nameOf_same hp) hg.supplied).bindSame fun _ =>
              .pure (made ⟨rfl, by simp⟩ (LikeAll.putFirst hp hg.tree _) rfl)
        · split
          · exact alone
          · exact (finds_callAsMutation parts ih hp).bind fun _ _ ho =>
              .pure (made ⟨rfl, by simp⟩ ho.1 ho.2)
    | _ => exact .pure ⟨.node row hp, rfl⟩

end StoryLang.Check
