/-
Which arguments a call takes.

Besides what is reported of the values that are given to it, a call is reported
for its arguments only: for a name that is written again, for one that it does
not take or whose type it does not accept, and for each that it needs and does
not get. So nothing is reported of it exactly if the arguments are those that it
asks for, and the order in which they are written does not matter.
-/
import Mathlib.Data.Multiset.Bind
import Mathlib.Data.Multiset.Dedup
import Mathlib.Data.Multiset.OrderedMonoid
import StoryLang.Proofs.Check.Sight.Statement

namespace StoryLang.Check

variable {α β : Type} {scopes : Scopes} {x x' : Check α} {f : α → Check β} {a : α} {b : β}
  {c d : Multiset Code} {e : Env} {s t u : State}

/-! ## What a check adds to the reports -/

/-- The codes of what was reported, each as often as it was. -/
def State.codes (s : State) : Multiset Code := ↑(s.reports.map Diagnostic.code)

/-- With these scopes the check gives `a`, whatever was reported and noted before. It adds
reports with the codes `c`, and keeps the scopes. -/
def Adds (scopes : Scopes) (x : Check α) (a : α) (c : Multiset Code) : Prop :=
  ∀ s, s.scopes = scopes → ∃ t, x s = .ok (a, t) ∧ t.scopes = scopes ∧ t.codes = c + s.codes

theorem adds_pure : Adds scopes (pure a) a 0 := fun s hs => ⟨s, rfl, hs, (zero_add _).symm⟩

theorem Adds.bind (h : Adds scopes x a c) (hf : Adds scopes (f a) b d) :
    Adds scopes (x >>= f) b (c + d) := by
  intro s hs
  obtain ⟨t, hx, ht, hc⟩ := h s hs
  obtain ⟨u, hu, hscopes, hd⟩ := hf t ht
  refine ⟨u, bind_ok_iff.2 ⟨a, t, hx, hu⟩, hscopes, ?_⟩
  rw [hd, hc, add_left_comm, add_assoc]

theorem Adds.congr (h : Adds scopes x a c) (hc : c = d) : Adds scopes x a d := hc ▸ h

/-- A step that adds nothing. -/
theorem Adds.after (h : Adds scopes x a 0) (hf : Adds scopes (f a) b c) :
    Adds scopes (x >>= f) b c := by
  simpa using h.bind hf

/-- What is given back in the end. -/
theorem Adds.gives (h : Adds scopes x a c) (g : α → β) :
    Adds scopes (x >>= fun a => pure (g a)) (g a) c := by
  have hpure := h.bind (f := fun a => pure (g a)) adds_pure
  rwa [add_zero] at hpure

theorem adds_report {code : Code} {args : List String} {place : Option Position} :
    Adds scopes (report code args place) () {code} := by
  refine fun s hs => ⟨_, rfl, hs, ?_⟩
  cases place <;> rfl

theorem adds_lookup {name : String} : Adds scopes (lookup e name) (e.found scopes name) 0 := by
  intro s hs
  rw [lookup_eq, hs]
  exact ⟨s, rfl, hs, (zero_add _).symm⟩

theorem adds_useService {name : String} : Adds scopes (useService name) () 0 :=
  fun _ hs => ⟨_, rfl, hs, (zero_add _).symm⟩

theorem adds_service? {hub : Hub} {name : String} :
    Adds scopes (service? (.hub hub) name) (hub.service? name) 0 :=
  fun s hs => ⟨s, rfl, hs, (zero_add _).symm⟩

theorem adds_forIn {l : List β} {f : β → PUnit → Check (ForInStep PUnit)}
    {codes : β → Multiset Code} (h : ∀ b v, Adds scopes (f b v) (.yield v) (codes b)) (v : PUnit) :
    Adds scopes (forIn l v f) v ((l : Multiset β).bind codes) := by
  induction l with
  | nil => exact adds_pure
  | cons b l ih =>
    rw [List.forIn_cons, ← Multiset.cons_coe, Multiset.cons_bind]
    exact (h b v).bind ih

/-- What a check adds that keeps the scopes depends on the scopes alone. -/
theorem Reflects.adds (h : Mirrors 0 s.scopes.inner s.scopes.inner x x) (hx : x s = .ok (a, t)) :
    Adds s.scopes x a (t.codes - s.codes) := by
  intro u hu
  have hm := h s.scopes.root s.reports u.reports s u
    ⟨⟨[], rfl, rfl, hu⟩, [], rfl, rfl⟩
  rw [hx] at hm
  obtain ⟨⟨a', u'⟩, hx', ⟨ha, ⟨top, htop, -, hi⟩, new, hn, hn'⟩⟩ := hm.exists_ok rfl
  obtain rfl := List.length_eq_zero_iff.1 htop
  obtain rfl : a' = a := ha
  refine ⟨u', hx', hi, ?_⟩
  have hcodes {r r' : State} (h : r'.reports = new ++ r.reports) :
      r'.codes = ↑(new.map Diagnostic.code) + r.codes := by
    rw [State.codes, h, List.map_append, State.codes, Multiset.coe_add]
  rw [hcodes hn, hcodes hn', add_tsub_cancel_right]

/-! ## What is asked of arguments -/

/-- What a call asks of its arguments: which it takes, with values of which types, and which
it needs. -/
structure Asked where
  takes : String → Ty → Prop
  needs : String → Prop

/-- A function or a mutation takes its parameters, and needs all of them. -/
def Asked.ofParameters (parameters : List (String × Ty)) : Asked where
  takes name ty := (name, ty) ∈ parameters
  needs name := name ∈ parameters.map (·.1)

/-- A command or an event takes the arguments that the registry lists, and needs those that
are required. -/
def Asked.ofHub (arguments : NameMap HubArgument) : Asked where
  takes name ty := (arguments.get? name).map HubArgument.ty = some ty
  needs name := ∃ argument, (name, argument) ∈ arguments.entries ∧ argument.required = true

/-- The arguments are those that are asked for: no name is written twice, each is one that is
taken, with a type that accepts its value, and every one that is needed is there. -/
structure Asked.Met (asked : Asked) (given : List Supplied) : Prop where
  distinct : (given.map (·.name)).Nodup
  taken : ∀ g ∈ given, ∃ ty, asked.takes g.name ty ∧ ty.accepts g.ty = true
  complete : ∀ name, asked.needs name → name ∈ given.map (·.name)

/-- The codes of reports on the arguments of a call: E0115, E0108, E0110 and E0109, and of a
service E0141, E0143 and E0142. -/
def argumentCodes : List Code :=
  [.repeatedArgument, .unknownFunctionArgument, .argumentType, .missingFunctionArgument,
    .unknownServiceArgument, .serviceArgumentType, .missingServiceArgument]

example : argumentCodes.map Code.name =
    ["E0115", "E0108", "E0110", "E0109", "E0141", "E0143", "E0142"] := by
  decide

/-! ## Names that are written again -/

/-- The names that were written before, each as often as it is written again. -/
def again (seen : List String) : List String → Multiset String
  | [] => 0
  | name :: names => (if seen.contains name then {name} else 0) + again (name :: seen) names

/-- What is written again is what is left when each name is taken once. -/
theorem again_add_dedup (seen names : List String) :
    again seen names + Multiset.dedup ↑(names ++ seen) =
      (names : Multiset String) + Multiset.dedup ↑seen := by
  induction names generalizing seen with
  | nil => rfl
  | cons name names ih =>
    have hswap : (↑(name :: names ++ seen) : Multiset String) = ↑(names ++ name :: seen) :=
      Multiset.coe_eq_coe.2 List.perm_middle.symm
    rw [again, hswap, add_assoc, ih, ← Multiset.cons_coe name names, ← Multiset.cons_coe name seen]
    by_cases hseen : name ∈ seen
    · rw [Multiset.dedup_cons_of_mem hseen]
      simp [hseen]
    · rw [Multiset.dedup_cons_of_notMem hseen]
      simp [hseen]

theorem again_eq (names : List String) : again [] names + Multiset.dedup ↑names = (names : Multiset String) := by
  simpa using again_add_dedup [] names

theorem again_perm {names names' : List String} (h : names.Perm names') :
    again [] names = again [] names' := by
  have hcoe : (↑names : Multiset String) = ↑names' := Multiset.coe_eq_coe.2 h
  have heq := again_eq names
  rw [hcoe] at heq
  exact add_right_cancel (heq.trans (again_eq names').symm)

theorem again_eq_zero {names : List String} : again [] names = 0 ↔ names.Nodup := by
  have heq := again_eq names
  rw [← Multiset.coe_nodup, ← Multiset.dedup_eq_self]
  constructor
  · intro h
    simpa [h] using heq
  · intro h
    rw [h] at heq
    simpa using heq

/-! ## What is reported of arguments -/

theorem bind_eq_zero {m : Multiset β} {codes : β → Multiset Code} :
    m.bind codes = 0 ↔ ∀ b ∈ m, codes b = 0 := by
  simp only [Multiset.eq_zero_iff_forall_notMem, Multiset.mem_bind, not_exists, not_and]
  exact forall_comm.trans (forall_congr' fun b => forall_comm)

/-- How the arguments of a call are judged: their types by name, and the codes of reports. -/
structure Judge where
  type? : String → Option Ty
  needed : List String
  unknown : Code
  mistyped : Code
  missing : Code

namespace Judge

variable {j : Judge} {given given' : List Supplied}

/-- What is reported of an argument that is written. -/
def ofOne (j : Judge) (g : Supplied) : Multiset Code :=
  match j.type? g.name with
  | none => {j.unknown}
  | some ty => if !ty.accepts g.ty then {j.mistyped} else 0

/-- What is reported for a name that may be needed. -/
def ofNeeded (j : Judge) (given : List Supplied) (name : String) : Multiset Code :=
  if !given.any (·.name = name) then {j.missing} else 0

/-- What is reported of arguments once the types of their values are known. -/
def ofAll (j : Judge) (given : List Supplied) : Multiset Code :=
  (given : Multiset Supplied).bind j.ofOne + (j.needed : Multiset String).bind (j.ofNeeded given)

/-- All that is reported of arguments. -/
def codes (j : Judge) (given : List Supplied) : Multiset Code :=
  (again [] (given.map (·.name))).map (fun _ => .repeatedArgument) + j.ofAll given

theorem codes_perm (h : given.Perm given') : j.codes given = j.codes given' := by
  have hcoe : (given : Multiset Supplied) = given' := Multiset.coe_eq_coe.2 h
  have hneeded : j.ofNeeded given = j.ofNeeded given' := by
    funext name
    have hany : given.any (·.name = name) = given'.any (·.name = name) := by
      rw [Bool.eq_iff_iff, List.any_eq_true, List.any_eq_true]
      exact exists_congr fun g => and_congr_left fun _ => h.mem_iff
    rw [ofNeeded, ofNeeded, hany]
  rw [codes, codes, again_perm (h.map _), ofAll, ofAll, hcoe, hneeded]

theorem mem_codes {code : Code} (h : code ∈ j.codes given) :
    code = .repeatedArgument ∨ code = j.unknown ∨ code = j.mistyped ∨ code = j.missing := by
  simp only [codes, ofAll, Multiset.mem_add, Multiset.mem_map, Multiset.mem_bind] at h
  obtain ⟨_, -, rfl⟩ | ⟨g, -, hg⟩ | ⟨name, -, hname⟩ := h
  · exact .inl rfl
  · unfold ofOne at hg
    split at hg
    · simp_all
    · split at hg <;> simp_all
  · unfold ofNeeded at hname
    split at hname <;> simp_all

/-- Nothing is reported if and only if the arguments are those that are asked for. -/
theorem codes_eq_zero {asked : Asked} (htakes : ∀ name ty, j.type? name = some ty ↔ asked.takes name ty)
    (hneeds : ∀ name, name ∈ j.needed ↔ asked.needs name) :
    j.codes given = 0 ↔ asked.Met given := by
  have hone (g : Supplied) : j.ofOne g = 0 ↔ ∃ ty, asked.takes g.name ty ∧ ty.accepts g.ty = true := by
    simp only [← htakes]
    unfold ofOne
    cases j.type? g.name <;> simp
  have hneeded (name : String) : j.ofNeeded given name = 0 ↔ name ∈ given.map (·.name) := by
    unfold ofNeeded
    split <;> simp_all
  simp only [codes, ofAll, AddLeftCancelMonoid.add_eq_zero, Multiset.map_eq_zero, again_eq_zero, bind_eq_zero,
    Multiset.mem_coe, hone, hneeded, hneeds]
  constructor
  · exact fun ⟨distinct, taken, complete⟩ => ⟨distinct, taken, complete⟩
  · exact fun ⟨distinct, taken, complete⟩ => ⟨distinct, taken, complete⟩

/-- How the arguments of a function or a mutation are judged. -/
def ofParameters (parameters : List (String × Ty)) : Judge where
  type? name := (parameters.find? (·.1 = name)).map (·.2)
  needed := parameters.map (·.1)
  unknown := .unknownFunctionArgument
  mistyped := .argumentType
  missing := .missingFunctionArgument

/-- How the arguments of a command or an event are judged. -/
def ofHub (arguments : NameMap HubArgument) : Judge where
  type? name := (arguments.get? name).map HubArgument.ty
  needed := (arguments.entries.filter (·.2.required)).map (·.1)
  unknown := .unknownServiceArgument
  mistyped := .serviceArgumentType
  missing := .missingServiceArgument

end Judge

theorem adds_ite {p : Prop} [Decidable p] (hx : p → Adds scopes x a c) (hf : ¬ p → Adds scopes x' a d) :
    Adds scopes (if p then x else x') a (if p then c else d) := by
  split
  · exact hx ‹_›
  · exact hf ‹_›

theorem adds_arguments {callee : String} {parameters : List (String × Ty)} {given : List Supplied}
    {place : Position} :
    Adds scopes (arguments callee parameters given place) () ((Judge.ofParameters parameters).ofAll given) := by
  have hneeded : ((Judge.ofParameters parameters).needed : Multiset String).bind
      ((Judge.ofParameters parameters).ofNeeded given) =
      (parameters : Multiset (String × Ty)).bind fun p =>
        (Judge.ofParameters parameters).ofNeeded given p.1 := by
    rw [Judge.ofParameters, ← Multiset.map_coe, Multiset.bind_map]
  rw [Judge.ofAll, hneeded]
  refine (adds_forIn (fun g _ => ?_) _).bind ?_
  · simp only [Judge.ofOne, Judge.ofParameters]
    cases parameters.find? (·.1 = g.name) with
    | none => exact adds_report.gives _
    | some p => exact adds_ite (fun _ => adds_report.gives _) fun _ => adds_pure
  · refine (adds_forIn (fun p _ => ?_) _).gives _
    exact adds_ite (fun _ => adds_report.gives _) fun _ => adds_pure

theorem adds_serviceArguments {service command : String} {expected : NameMap HubArgument}
    {given : List Supplied} {place : Position} :
    Adds scopes (serviceArguments service command expected given place) ()
      ((Judge.ofHub expected).ofAll given) := by
  have hneeded (entries : List (String × HubArgument)) :
      (((entries.filter (·.2.required)).map (·.1) : List String) : Multiset String).bind
        ((Judge.ofHub expected).ofNeeded given) =
      (entries : Multiset (String × HubArgument)).bind fun p =>
        if p.2.required && !given.any (·.name = p.1) then {.missingServiceArgument} else 0 := by
    induction entries with
    | nil => rfl
    | cons p entries ih =>
      rw [← Multiset.cons_coe p, Multiset.cons_bind, ← ih, List.filter_cons]
      cases p.2.required with
      | false => simp
      | true =>
        rw [if_pos rfl, List.map_cons, ← Multiset.cons_coe, Multiset.cons_bind, Bool.true_and]
        rfl
  have hentries := hneeded expected.entries
  rw [Judge.ofAll, show (Judge.ofHub expected).needed =
    (expected.entries.filter (·.2.required)).map (·.1) from rfl, hentries]
  refine (adds_forIn (fun g _ => ?_) _).bind ?_
  · simp only [Judge.ofOne, Judge.ofHub]
    cases expected.get? g.name with
    | none => exact adds_report.gives _
    | some argument => exact adds_ite (fun _ => adds_report.gives _) fun _ => adds_pure
  · refine (adds_forIn (fun p _ => ?_) _).gives _
    exact adds_ite (fun _ => adds_report.gives _) fun _ => adds_pure

/-! ## The values of arguments -/

/-- The type that is found for the value of an argument with these parts. -/
def valueTy (e : Env) (s : State) (ps : List Tree) : Ty :=
  match firsts e 1 ps s with
  | .ok ((_, tys), _) => tys.getD 0 .any
  | .error _ => .any

/-- The codes of what is reported of that value. -/
def valueCodes (e : Env) (s : State) (ps : List Tree) : Multiset Code :=
  match firsts e 1 ps s with
  | .ok (_, t) => t.codes - s.codes
  | .error _ => 0

/-- An argument as it is written, with the type of its value. -/
def writtenOne (e : Env) (s : State) : Tree → Option Supplied
  | .token _ => none
  | .node _ _ ps =>
    (Tree.firstTokenOf? ps).map fun name => ⟨name.literal, valueTy e s ps, name.position⟩

/-- The arguments in a row as they are written, with the types of their values. -/
def written (e : Env) (s : State) (row : List Tree) : List Supplied := row.filterMap (writtenOne e s)

/-- The codes of what is reported of the value of an argument. -/
def withinOne (e : Env) (s : State) (t : Tree) : Multiset Code :=
  if (writtenOne e s t).isSome then valueCodes e s t.parts else 0

/-- The codes of what is reported of the values of the arguments in a row. -/
def within (e : Env) (s : State) (row : List Tree) : Multiset Code :=
  (row : Multiset Tree).bind (withinOne e s)

/-- No value of the arguments stops checking. -/
def Checkable (e : Env) (s : State) (row : List Tree) : Prop :=
  ∀ t ∈ row, (writtenOne e s t).isSome → ∃ out, firsts e 1 t.parts s = .ok out

variable {row : List Tree} {seen : List String} {rule : Rule} {line : Option Coord}
  {ps ts : List Tree} {name : Token}

theorem firsts_adds {n : Nat} {out : List Tree × List Ty} (h : firsts e n ps s = .ok (out, t)) :
    Adds s.scopes (firsts e n ps) out (t.codes - s.codes) :=
  ((RowsMirror.of fun q _ => (Env.Sees.refl e _).values q).firsts n).adds h

/-- An argument, whose name is reported if it was seen. -/
theorem suppliedBy_argument (h : Tree.firstTokenOf? ps = some name) :
    suppliedBy e seen (.node rule line ps :: ts) =
      (if seen.contains name.literal then report .repeatedArgument [name.literal] (some name.position)
        else pure ()) >>= fun _ => firsts e 1 ps >>= fun made =>
        suppliedBy e (name.literal :: seen) ts >>= fun rest =>
        pure (.node rule line made.1 :: rest.1,
          (⟨name.literal, made.2.getD 0 .any, name.position⟩ : Supplied) :: rest.2) := by
  rw [suppliedBy, h]
  dsimp only
  split <;> rfl

/-- What is checked of a row shows that its values can be checked. -/
theorem checkable_of_suppliedBy {out : (List Tree × List Supplied) × State} (hu : u.scopes = s.scopes)
    (h : suppliedBy e seen row u = .ok out) : Checkable e s row := by
  induction row generalizing seen u out with
  | nil => exact fun t ht => by cases ht
  | cons q row ih =>
    refine List.forall_mem_cons.2 ?_
    cases q with
    | token v =>
      rw [suppliedBy] at h
      obtain ⟨made, v, hrow, -⟩ := bind_ok_iff.1 h
      exact ⟨nofun, ih hu hrow⟩
    | node rule line ps =>
      cases hname : Tree.firstTokenOf? ps with
      | none =>
        rw [suppliedBy, hname] at h
        obtain ⟨made, v, hrow, -⟩ := bind_ok_iff.1 h
        exact ⟨by simp [writtenOne, hname], ih hu hrow⟩
      | some name =>
        rw [suppliedBy_argument hname] at h
        obtain ⟨_, v, hagain, h⟩ := bind_ok_iff.1 h
        obtain ⟨made, w, hfirst, h⟩ := bind_ok_iff.1 h
        obtain ⟨rest, x, hrow, -⟩ := bind_ok_iff.1 h
        have hv : v.scopes = s.scopes := by
          split at hagain <;> obtain ⟨-, rfl⟩ := Prod.mk.inj (Except.ok.inj hagain) <;> exact hu
        obtain ⟨w', hfirst', hw, -⟩ := firsts_adds hfirst v rfl
        obtain rfl : w' = w := by rw [hfirst] at hfirst'; cases hfirst'; rfl
        obtain ⟨t, hs, -⟩ := firsts_adds hfirst s hv.symm
        exact ⟨fun _ => ⟨_, hs⟩, ih (hw.trans hv) hrow⟩

/-- What is no argument is passed over. -/
theorem written_other {q : Tree} (row : List Tree) (h : writtenOne e s q = none) :
    written e s (q :: row) = written e s row ∧ within e s (q :: row) = within e s row := by
  refine ⟨List.filterMap_cons_none h, ?_⟩
  rw [within, ← Multiset.cons_coe, Multiset.cons_bind, withinOne, h]
  exact zero_add _

theorem written_argument {q : Tree} {g : Supplied} (row : List Tree)
    (h : writtenOne e s q = some g) :
    written e s (q :: row) = g :: written e s row ∧
      within e s (q :: row) = valueCodes e s q.parts + within e s row := by
  refine ⟨List.filterMap_cons_some h, ?_⟩
  rw [within, ← Multiset.cons_coe, Multiset.cons_bind, withinOne, h]
  rfl

/-- What the arguments in a row give and add. -/
theorem adds_suppliedBy (h : Checkable e s row) (seen : List String) :
    ∃ made, Adds s.scopes (suppliedBy e seen row) (made, written e s row)
      ((again seen ((written e s row).map (·.name))).map (fun _ => .repeatedArgument) +
        within e s row) := by
  induction row generalizing seen with
  | nil => exact ⟨[], adds_pure⟩
  | cons q row ih =>
    obtain ⟨hq, hrow⟩ := List.forall_mem_cons.1 h
    cases q with
    | token v =>
      obtain ⟨hwritten, hwithin⟩ := written_other row (rfl : writtenOne e s (.token v) = none)
      obtain ⟨made, ih⟩ := ih hrow seen
      rw [hwritten, hwithin, suppliedBy]
      exact ⟨_, ih.gives fun out => (Tree.token v :: out.1, out.2)⟩
    | node rule line ps =>
      cases hname : Tree.firstTokenOf? ps with
      | none =>
        have hone : writtenOne e s (.node rule line ps) = none := by rw [writtenOne, hname, Option.map_none]
        obtain ⟨hwritten, hwithin⟩ := written_other row hone
        obtain ⟨made, ih⟩ := ih hrow seen
        rw [hwritten, hwithin, suppliedBy, hname]
        exact ⟨_, ih.gives fun out => (Tree.node rule line ps :: out.1, out.2)⟩
      | some name =>
        have hone : writtenOne e s (.node rule line ps) =
            some ⟨name.literal, valueTy e s ps, name.position⟩ := by
          rw [writtenOne, hname, Option.map_some]
        obtain ⟨hwritten, hwithin⟩ := written_argument row hone
        obtain ⟨⟨⟨parts, tys⟩, t⟩, hfirst⟩ := hq (by rw [hone]; rfl)
        replace hfirst : firsts e 1 ps s = .ok ((parts, tys), t) := hfirst
        have hty : valueTy e s ps = tys.getD 0 .any := by rw [valueTy, hfirst]
        have hcodes : valueCodes e s ps = t.codes - s.codes := by rw [valueCodes, hfirst]
        obtain ⟨made, ih⟩ := ih hrow (name.literal :: seen)
        refine ⟨.node rule line parts :: made, ?_⟩
        rw [hwritten, hwithin, suppliedBy_argument hname, hty]
        have hnote : Adds s.scopes (if seen.contains name.literal = true then
              report .repeatedArgument [name.literal] (some name.position) else pure ()) ()
            (if seen.contains name.literal = true then {.repeatedArgument} else 0) :=
          adds_ite (fun _ => adds_report) fun _ => adds_pure
        have hagain : (again seen (name.literal :: (written e s row).map (·.name))).map
            (fun _ => Code.repeatedArgument) =
            (if seen.contains name.literal then {.repeatedArgument} else 0) +
              (again (name.literal :: seen) ((written e s row).map (·.name))).map
                fun _ => Code.repeatedArgument := by
          rw [again, Multiset.map_add]
          split <;> rfl
        refine Adds.congr (hnote.bind ((firsts_adds hfirst).bind (ih.gives _))) ?_
        rw [add_left_comm (t.codes - s.codes), ← add_assoc, List.map_cons, hagain, Tree.parts, hcodes]

/-! ## Calls that judge their arguments -/

/-- A check with a place for a row of arguments judges them by `j`, once their values are checked,
and adds the codes `c` besides. It stops if the check of one of the values does. -/
def Judges (e : Env) (s : State) (j : Judge) (check : List Tree → Check α) (c : Multiset Code) : Prop :=
  ∀ row, (∀ u out, u.scopes = s.scopes → check row u = .ok out → Checkable e s row) ∧
    (Checkable e s row → ∃ a, Adds s.scopes (check row) a
      (j.codes (written e s row) + within e s row + c))

variable {j : Judge} {check : List Tree → Check α}

theorem judges_supplied {after : List Tree → List Tree × List Supplied → Check α}
    (h : ∀ row given, ∃ a, Adds s.scopes (after row given) a (j.ofAll given.2 + c)) :
    Judges e s j (fun row => suppliedBy e [] row >>= after row) c := by
  refine fun row => ⟨fun u out hu hout => ?_, fun hrow => ?_⟩
  · obtain ⟨a, t⟩ := out
    obtain ⟨given, v, hgiven, -⟩ := bind_ok_iff.1 hout
    exact checkable_of_suppliedBy hu hgiven
  · obtain ⟨made, hmade⟩ := adds_suppliedBy hrow []
    obtain ⟨a, ha⟩ := h row (made, written e s row)
    refine ⟨a, (hmade.bind ha).congr ?_⟩
    rw [Judge.codes, add_add_add_comm, ← add_assoc]

/-- What is checked first adds to what is added besides. -/
theorem Judges.after {before : Check β} {check : β → List Tree → Check α}
    (hb : Adds s.scopes before b d) (h : Judges e s j (check b) c) :
    Judges e s j (fun row => before >>= fun b => check b row) (d + c) := by
  refine fun row => ⟨fun u out hu hout => ?_, fun hrow => ?_⟩
  · obtain ⟨a, t⟩ := out
    obtain ⟨v, hx, hv, -⟩ := hb u hu
    obtain ⟨b', v', hx', hout⟩ := bind_ok_iff.1 hout
    rw [hx] at hx'
    obtain ⟨rfl, rfl⟩ := Prod.mk.inj (Except.ok.inj hx')
    exact (h row).1 v _ hv hout
  · obtain ⟨a, ha⟩ := (h row).2 hrow
    exact ⟨a, (hb.bind ha).congr (add_left_comm _ _ _)⟩

theorem Judges.congr {check' : List Tree → Check α} (h : Judges e s j check c)
    (heq : ∀ row, check' row = check row) : Judges e s j check' c :=
  (funext heq : check' = check) ▸ h

/-- The arguments are those of the first node for them. -/
theorem argumentsOf_front (front : List Tree) (h : ∀ p ∈ front, p.isA .arguments = false) :
    argumentsOf e (front ++ .node .arguments line row :: ps) =
      suppliedBy e [] row >>= fun out => pure (some (.node .arguments line out.1), out.2) := by
  induction front with
  | nil => rfl
  | cons p front ih =>
    simp only [List.forall_mem_cons] at h
    rw [← ih h.2]
    cases p with
    | token v => rfl
    | node rule l inner =>
      exact argumentsOf_other (by rintro rfl; simp [Tree.isA, Tree.rule?] at h)

/-- The name of a call is the first name in front of its arguments. -/
theorem nameOf?_front (front : List Token) (h : front.find? (·.kind = .name) = some name) :
    nameOf? (front.map .token ++ ps) = some name := by
  have htokens : tokensOf (front.map .token ++ ps) = front ++ tokensOf ps := by
    rw [tokensOf, List.filterMap_append, List.filterMap_map]
    congr 1
    exact List.filterMap_some
  rw [nameOf?, htokens, List.find?_append, h, Option.some_or]

/-- A check of a call at a place of a story, with a place for the arguments that are given: what
it asks of them, and the codes of what is reported there besides what concerns them.

Functions and links of mutations have their name in front of the arguments; `extra` are the
outputs and the block that stand behind. A call of a service is a mutation if its name is that of
a variable, unless that holds the output of a service and there is no dot behind it. -/
inductive Call (e : Env) (s : State) : {α : Type} → Asked → (List Tree → Check α) → Multiset Code → Prop where
  | function {line l} {front : List Token} {name : Token} {extra signature} (named : front.find? (·.kind = .name) = some name)
      (declared : e.functions.get? name.literal = some signature)
      (distinct : (signature.parameters.map (·.1)).Nodup) :
    Call e s (.ofParameters signature.parameters)
      (fun row => value e (.node .functionCall line
        (front.map .token ++ .node .arguments l row :: extra))) 0
  | mutation {line link l} {front : List Token} {name : Token} {extra} {subject made : Tree}
      {ty : Ty} {mutation t} (isNode : subject.isNode = true) (checked : value e subject s = .ok ((made, ty), t))
      (known : ty.isAny = false) (named : front.find? (·.kind = .name) = some name)
      (found : Mutation.find? ty name.literal = some mutation)
      (alone : ∀ p ∈ extra, p.isA .mutationFragment = false) :
    Call e s (.ofParameters mutation.arguments)
      (fun row => value e (.node .mutation line
        (subject :: .node .mutationFragment link (front.map .token ++ [.node .arguments l row]) ::
          extra)))
      (t.codes - s.codes)
  | callAsMutation {line l} {path : Tree} {root name : Token} {extra made} {ty : Ty} {mutation b t}
      (isPath : path.isA .path = true)
      (rooted : path.firstToken? = some root) (bound : e.found s.scopes root.literal = some b)
      (mutates : b.ty.isOutput = true → path.parts.any (·.isA .pathFragment) = true)
      (checked : value e path s = .ok ((made, ty), t)) (known : ty.isAny = false)
      (named : name.kind = .name) (found : Mutation.find? ty name.literal = some mutation)
      (alone : ∀ p ∈ extra, p.isA .mutationFragment = false) :
    Call e s (.ofParameters mutation.arguments)
      (fun row => value e (.node .serviceCall line
        (path :: .token name :: .node .arguments l row :: extra)))
      (t.codes - s.codes)
  | command {line l} {path : Tree} {root name : Token} {extra} {hub : Hub} {service command}
      (isPath : path.isA .path = true)
      (rooted : path.firstToken? = some root)
      (undotted : path.parts.any (·.isA .pathFragment) = false)
      (unbound : e.found s.scopes root.literal = none) (named : name.kind = .name)
      (registry : e.registry = some (.hub hub))
      (known : hub.service? root.literal = some service)
      (found : service.commands.get? name.literal = some command) :
    Call e s (.ofHub command.arguments)
      (fun row => value e (.node .serviceCall line
        (path :: .token name :: .node .arguments l row :: extra))) 0
  | event {line l} {path : Tree} {word root name : Token} {extra b} {hub : Hub}
      {service command known event made t}
      (worded : word.kind ≠ .name) (isPath : path.isA .path = true)
      (rooted : path.firstToken? = some root) (bound : e.found s.scopes root.literal = some b)
      (output : b.ty = .service service command) (named : name.kind = .name)
      (registry : e.registry = some (.hub hub))
      (registered : (hub.service? service).bind (·.commands.get? command) = some known)
      (found : known.events.get? name.literal = some event)
      (body : inOwnScope (do
        declareOutput (.node .whenBlock line (.token word :: extra)) event.outputTy
        bodyOf e extra) s = .ok (made, t)) :
    Call e s (.ofHub event.arguments)
      (fun row => statement e (.node .whenBlock line
        (.token word :: path :: .token name :: .node .arguments l row :: extra)))
      (t.codes - s.codes)

/-- A list of parameters with distinct names gives each name its type. -/
theorem takes_ofParameters {parameters : List (String × Ty)} (h : (parameters.map (·.1)).Nodup)
    (name : String) (ty : Ty) :
    (Judge.ofParameters parameters).type? name = some ty ↔ (name, ty) ∈ parameters := by
  induction parameters with
  | nil => simp [Judge.ofParameters]
  | cons p parameters ih =>
    obtain ⟨hp, h⟩ := List.nodup_cons.1 h
    have ih := ih h
    simp only [Judge.ofParameters] at ih ⊢
    by_cases hname : p.1 = name
    · have hrest : (name, ty) ∉ parameters := by
        subst hname
        exact fun hmem => hp (List.mem_map.2 ⟨_, hmem, rfl⟩)
      simp [hname, hrest, Prod.ext_iff, eq_comm]
    · simpa [hname, Prod.ext_iff, Ne.symm hname] using ih

/-- The arguments of a mutation have distinct names. -/
theorem mutation_distinct {ty : Ty} {m : Mutation} (h : Mutation.find? ty name.literal = some m) :
    (m.arguments.map (·.1)).Nodup := by
  have hall (ms : List Mutation) (hms : ∀ m ∈ ms, (m.arguments.map (·.1)).Nodup) {f : Mutation → Bool}
      (h : ms.find? f = some m) : (m.arguments.map (·.1)).Nodup :=
    hms m (List.mem_of_find?_eq_some h)
  unfold Mutation.find? at h
  split at h
  · exact hall _ (by decide) h
  · exact hall _ (by decide) h
  · exact hall _ (by decide) h
  · exact hall _ (by simp [Mutation.ofList]) h
  · exact hall _ (by simp [Mutation.ofMap]) h
  · obtain rfl := Option.some.inj h
    exact List.nodup_nil
  · cases h

/-! ## Every call judges its arguments -/

/-- What is no link adds nothing. -/
theorem adds_noLinks {ty : Ty} (h : ∀ p ∈ ts, p.isA .mutationFragment = false) :
    Adds scopes (links e ty ts) (ts, ty) 0 := by
  induction ts with
  | nil => exact adds_pure
  | cons p ts ih =>
    simp only [List.forall_mem_cons] at h
    cases p with
    | token v =>
      have hlinks : links e ty (.token v :: ts) =
          links e ty ts >>= fun out => pure (.token v :: out.1, out.2) := rfl
      rw [hlinks]
      exact (ih h.2).gives _
    | node rule l inner =>
      rw [links_other (by rintro rfl; simp [Tree.isA, Tree.rule?] at h)]
      exact (ih h.2).gives _

theorem judges_function {front : List Token} {signature : Signature} {l : Option Coord} {extra : List Tree}
    (named : front.find? (·.kind = .name) = some name)
    (declared : e.functions.get? name.literal = some signature) :
    Judges e s (.ofParameters signature.parameters) (fun row => value e (.node .functionCall line
      (front.map .token ++ .node .arguments l row :: extra))) 0 := by
  have hfront : ∀ p ∈ front.map Tree.token, p.isA .arguments = false := by
    simp [Tree.isA, Tree.rule?]
  simp only [value, argumentsOf_front _ hfront, nameOf?_front _ named, bind_assoc, pure_bind]
  refine judges_supplied fun row given => ?_
  simp only [functionCall, declared, bind_assoc, pure_bind, add_zero]
  exact ⟨_, adds_arguments.gives _⟩

theorem adds_mutationCall {ty : Ty} {m : Mutation} {given : List Supplied} (known : ty.isAny = false)
    (found : Mutation.find? ty name.literal = some m) :
    Adds scopes (mutationCall ty (some name) given) m.returns
      ((Judge.ofParameters m.arguments).ofAll given) := by
  simp only [mutationCall, found, known, Bool.not_false, if_true]
  exact adds_arguments.gives _

theorem value_adds {q : Tree} {out : Tree × Ty} (h : value e q s = .ok (out, t)) :
    Adds s.scopes (value e q) out (t.codes - s.codes) :=
  ((Env.Sees.refl e _).value q).adds h

/-- The row of the link is checked behind the subject. -/
theorem judges_mutation {front : List Token} {subject made : Tree} {ty : Ty} {m : Mutation}
    {link l : Option Coord} {extra : List Tree} (isNode : subject.isNode = true)
    (checked : value e subject s = .ok ((made, ty), t)) (known : ty.isAny = false)
    (named : front.find? (·.kind = .name) = some name)
    (found : Mutation.find? ty name.literal = some m)
    (alone : ∀ p ∈ extra, p.isA .mutationFragment = false) :
    Judges e s (.ofParameters m.arguments) (fun row => value e (.node .mutation line
      (subject :: .node .mutationFragment link (front.map .token ++ [.node .arguments l row]) :: extra)))
      (t.codes - s.codes) := by
  have hfront : ∀ p ∈ front.map Tree.token, p.isA .arguments = false := by
    simp [Tree.isA, Tree.rule?]
  have hvalue (ts : List Tree) : value e (.node .mutation line (subject :: ts)) =
      value e subject >>= fun out => links e out.2 ts >>= fun rest =>
        pure (.node .mutation line (out.1 :: rest.1), rest.2) := by
    cases subject with
    | token v => cases isNode
    | node r inner ps =>
      rw [value, mutation]
      simp only [bind_assoc, pure_bind]
  simp only [hvalue]
  rw [← add_zero (t.codes - s.codes)]
  refine Judges.after (value_adds checked) ?_
  simp only [links, argumentsOf_front _ hfront, nameOf?_front _ named, bind_assoc, pure_bind]
  refine judges_supplied fun row given => ?_
  exact ⟨_, (adds_mutationCall known found).bind ((adds_noLinks alone).gives _)⟩

variable {path : Tree} {root : Token} {l : Option Coord} {extra : List Tree} {b : Binding}

/-- The variables of a call of a service or a mutation that is written like one. -/
theorem value_call {ts : List Tree} (isPath : path.isA .path = true) (rooted : path.firstToken? = some root) :
    value e (.node .serviceCall line (path :: ts)) = lookup e root.literal >>= fun found =>
      match found.map (·.ty) with
      | none =>
        if path.parts.any (·.isA .pathFragment) then do
          report .serviceNameDot [] (some root.position)
          let (given, _) ← argumentsOf e (path :: ts)
          return (.node .serviceCall line (Tree.putFirst .arguments given (path :: ts)), .any)
        else do
          let (given, supplied) ← argumentsOf e (path :: ts)
          let ty ← commandCall e root.literal root.position (nameOf? (path :: ts)) supplied
          return (.node .serviceCall line (Tree.putFirst .arguments given (path :: ts)), ty)
      | some ty =>
        match ty, path.parts.any (·.isA .pathFragment) with
        | .service _ _, false => do
          let (given, _) ← argumentsOf e (path :: ts)
          return (.node .serviceCall line (Tree.putFirst .arguments given (path :: ts)), .any)
        | _, _ => do
          let (ps, ty) ← callAsMutation e (path :: ts)
          return (.node .mutation line ps, ty) := by
  rw [value, List.find?_cons_of_pos isPath]
  dsimp only
  generalize path.firstToken? = first at rooted ⊢
  subst rooted
  rfl

/-- Behind a path and a name, the arguments are found, and the name. -/
theorem argumentsOf_called (isPath : path.isA .path = true) :
    argumentsOf e (path :: .token name :: .node .arguments l row :: extra) =
      suppliedBy e [] row >>= fun out => pure (some (.node .arguments l out.1), out.2) := by
  refine argumentsOf_front [path, .token name] ?_
  simp only [List.forall_mem_cons]
  exact ⟨Tree.isA_ne isPath (by simp), rfl, nofun⟩

theorem nameOf?_called (isPath : path.isA .path = true) (named : name.kind = .name) :
    nameOf? (path :: .token name :: ts) = some name := by
  obtain ⟨line, ps, rfl⟩ := Tree.isA_iff.1 isPath
  exact nameOf?_front [name] (by simp [named])

theorem adds_commandCall {hub : Hub} {service : String} {known : HubService} {command : HubCommand}
    {place : Position} {given : List Supplied} (registry : e.registry = some (.hub hub))
    (registered : hub.service? service = some known)
    (found : known.commands.get? name.literal = some command) :
    ∃ ty, Adds scopes (commandCall e service place (some name) given) ty
      ((Judge.ofHub command.arguments).ofAll given) := by
  have hknown : Adds scopes (service? (.hub hub) service) (some known) 0 :=
    registered ▸ adds_service?
  simp only [commandCall, registry]
  cases hevents : command.events.isEmpty with
  | true =>
    refine ⟨command.outputTy, adds_useService.after (hknown.after ?_)⟩
    simp only [found, hevents, if_true]
    exact adds_serviceArguments.gives _
  | false =>
    refine ⟨.service service name.literal, adds_useService.after (hknown.after ?_)⟩
    simp only [found, hevents, Bool.false_eq_true, if_false]
    exact adds_serviceArguments.gives _

theorem judges_command {hub : Hub} {service : HubService} {command : HubCommand}
    (isPath : path.isA .path = true) (rooted : path.firstToken? = some root)
    (undotted : path.parts.any (·.isA .pathFragment) = false)
    (unbound : e.found s.scopes root.literal = none) (named : name.kind = .name)
    (registry : e.registry = some (.hub hub)) (known : hub.service? root.literal = some service)
    (found : service.commands.get? name.literal = some command) :
    Judges e s (.ofHub command.arguments) (fun row => value e (.node .serviceCall line
      (path :: .token name :: .node .arguments l row :: extra))) 0 := by
  simp only [value_call isPath rooted]
  rw [← add_zero 0]
  refine Judges.after adds_lookup ?_
  simp only [unbound, Option.map_none, undotted, argumentsOf_called isPath, nameOf?_called isPath named,
    bind_assoc, pure_bind, Bool.false_eq_true, if_false]
  refine judges_supplied fun row given => ?_
  obtain ⟨ty, hty⟩ : ∃ ty, Adds s.scopes (commandCall e root.literal root.position (some name) given.2) ty
      ((Judge.ofHub command.arguments).ofAll given.2) := adds_commandCall registry known found
  rw [add_zero]
  exact ⟨_, hty.gives _⟩

theorem judges_callAsMutation {made : Tree} {ty : Ty} {m : Mutation} (isPath : path.isA .path = true)
    (rooted : path.firstToken? = some root) (bound : e.found s.scopes root.literal = some b)
    (mutates : b.ty.isOutput = true → path.parts.any (·.isA .pathFragment) = true)
    (checked : value e path s = .ok ((made, ty), t)) (known : ty.isAny = false)
    (named : name.kind = .name) (found : Mutation.find? ty name.literal = some m)
    (alone : ∀ p ∈ extra, p.isA .mutationFragment = false) :
    Judges e s (.ofParameters m.arguments) (fun row => value e (.node .serviceCall line
      (path :: .token name :: .node .arguments l row :: extra))) (t.codes - s.codes) := by
  have hcall (ts : List Tree) : callAsMutation e (path :: ts) = value e path >>= fun out =>
      argumentsOf e ts >>= fun given => mutationCall out.2 (nameOf? ts) given.2 >>= fun ty =>
        links e ty ts >>= fun rest =>
          pure (asMutation out.1 (Tree.putFirst .arguments given.1 rest.1), rest.2) := by
    obtain ⟨pline, ps, rfl⟩ := Tree.isA_iff.1 isPath
    rw [callAsMutation]
  have hargs (row : List Tree) : argumentsOf e (.token name :: .node .arguments l row :: extra) =
      suppliedBy e [] row >>= fun out => pure (some (.node .arguments l out.1), out.2) :=
    argumentsOf_front [.token name] (by simp [Tree.isA, Tree.rule?])
  have hname (ts : List Tree) : nameOf? (.token name :: ts) = some name :=
    nameOf?_front [name] (by simp [named])
  simp only [value_call isPath rooted]
  rw [← zero_add (t.codes - s.codes)]
  refine Judges.after adds_lookup ?_
  have hjudges : Judges e s (.ofParameters m.arguments) (fun row =>
      callAsMutation e (path :: .token name :: .node .arguments l row :: extra) >>= fun out =>
        pure (Tree.node .mutation line out.1, out.2)) (t.codes - s.codes) := by
    simp only [hcall, hargs, hname, bind_assoc, pure_bind]
    rw [← add_zero (t.codes - s.codes)]
    refine Judges.after (value_adds checked) (judges_supplied fun row given => ?_)
    have hlinks : Adds s.scopes (links e m.returns (.token name :: .node .arguments l row :: extra)) _ 0 :=
      adds_noLinks (List.forall_mem_cons.2 ⟨rfl, List.forall_mem_cons.2 ⟨rfl, alone⟩⟩)
    exact ⟨_, (adds_mutationCall known found).bind (hlinks.gives _)⟩
  refine hjudges.congr fun row => ?_
  simp only [bound, Option.map_some]
  split
  · rename_i hty hdot
    rw [hty, hdot] at mutates
    exact absurd (mutates rfl) Bool.false_ne_true
  · rfl

theorem adds_eventCall {hub : Hub} {service command : String} {known : HubCommand} {event : HubEvent}
    {given : List Supplied} (registry : e.registry = some (.hub hub))
    (registered : (hub.service? service).bind (·.commands.get? command) = some known)
    (found : known.events.get? name.literal = some event) :
    Adds scopes (eventCall e service command name given) event.outputTy
      ((Judge.ofHub event.arguments).ofAll given) := by
  simp only [eventCall, registry]
  refine adds_service?.after ?_
  simp only [registered, found]
  exact adds_serviceArguments.gives _

variable {word : Token}

/-- What is between the keyword of a `when` and its outputs and block does not matter to them. -/
theorem declareOutput_when {ty : Ty} (isPath : path.isA .path = true) :
    declareOutput (.node .whenBlock line
      (.token word :: path :: .token name :: .node .arguments l row :: extra)) ty =
    declareOutput (.node .whenBlock line (.token word :: extra)) ty := by
  have hnames : outputNames (.token word :: path :: .token name :: .node .arguments l row :: extra) =
      outputNames (.token word :: extra) := by
    unfold outputNames
    rw [List.find?_cons_of_neg (by simp [Tree.isA, Tree.rule?]),
      List.find?_cons_of_neg (by simp [Tree.isA_ne isPath (by decide : Rule.path ≠ .output)]),
      List.find?_cons_of_neg (by simp [Tree.isA, Tree.rule?]),
      List.find?_cons_of_neg (by simp [Tree.isA, Tree.rule?]),
      List.find?_cons_of_neg (by simp [Tree.isA, Tree.rule?])]
  unfold declareOutput
  rw [Tree.parts, Tree.parts, hnames]
  rfl

theorem bodyOf_when (isPath : path.isA .path = true) :
    bodyOf e (.token word :: path :: .token name :: .node .arguments l row :: extra) = bodyOf e extra := by
  obtain ⟨pline, ps, rfl⟩ := Tree.isA_iff.1 isPath
  rfl

/-- The outputs and the block of a `when` are checked in a scope of their own. -/
theorem judges_event {hub : Hub} {service command : String} {known : HubCommand} {event : HubEvent}
    {made : Option Tree} (worded : word.kind ≠ .name) (isPath : path.isA .path = true)
    (rooted : path.firstToken? = some root) (bound : e.found s.scopes root.literal = some b)
    (output : b.ty = .service service command) (named : name.kind = .name)
    (registry : e.registry = some (.hub hub))
    (registered : (hub.service? service).bind (·.commands.get? command) = some known)
    (found : known.events.get? name.literal = some event)
    (body : inOwnScope (do
      declareOutput (.node .whenBlock line (.token word :: extra)) event.outputTy
      bodyOf e extra) s = .ok (made, t)) :
    Judges e s (.ofHub event.arguments) (fun row => statement e (.node .whenBlock line
      (.token word :: path :: .token name :: .node .arguments l row :: extra))) (t.codes - s.codes) := by
  have hargs (row : List Tree) :
      argumentsOf e (.token word :: path :: .token name :: .node .arguments l row :: extra) =
        suppliedBy e [] row >>= fun out => pure (some (.node .arguments l out.1), out.2) := by
    refine argumentsOf_front [.token word, path, .token name] ?_
    simp only [List.forall_mem_cons]
    exact ⟨rfl, Tree.isA_ne isPath (by simp), rfl, nofun⟩
  have hname (ts : List Tree) : nameOf? (.token word :: path :: .token name :: ts) = some name := by
    obtain ⟨pline, ps, rfl⟩ := Tree.isA_iff.1 isPath
    exact nameOf?_front [word, name] (by simp [worded, named])
  have hroot (ts : List Tree) : ((.token word :: path :: ts).find? (·.isA .path)).bind Tree.firstToken? =
      some root := by
    rw [List.find?_cons_of_neg (by simp [Tree.isA, Tree.rule?]), List.find?_cons_of_pos isPath]
    exact rooted
  have hbody : Adds s.scopes (inOwnScope (do
      declareOutput (.node .whenBlock line (.token word :: extra)) event.outputTy
      bodyOf e extra)) made (t.codes - s.codes) := by
    have hblocks : BlocksMirror s.scopes.inner s.scopes.inner extra := fun q _ => (treeMirrors _ _ q).list
    have hmirrors : Mirrors 1 s.scopes.inner s.scopes.inner _ _ :=
      (mirrors_declareOutput (.node .whenBlock line (.token word :: extra)) event.outputTy).bind
        fun _ => hblocks.bodyOf (Env.Sees.refl e _)
    exact (mirrors_inOwnScope hmirrors).adds body
  simp only [statement, hargs, hname, hroot, declareOutput_when isPath, bodyOf_when isPath, bind_assoc,
    pure_bind]
  refine judges_supplied fun row given => ?_
  have hlistening : Adds s.scopes (listening e root (some name) given.2) event.outputTy
      ((Judge.ofHub event.arguments).ofAll given.2) := by
    rw [listening_eq]
    refine adds_lookup.after ?_
    simp only [bound, Option.map_some, output, heard]
    exact adds_eventCall registry registered found
  have hrest := hbody.gives fun body => Tree.node .whenBlock line (Tree.putFirst .block body
    (Tree.putFirst .arguments (some (.node .arguments l given.1))
      (.token word :: path :: .token name :: .node .arguments l row :: extra)))
  simp only [inOwnScope, bind_assoc, pure_bind] at hrest
  exact ⟨_, hlistening.bind hrest⟩

theorem takes_ofHub (arguments : NameMap HubArgument) (name : String) (ty : Ty) :
    (Judge.ofHub arguments).type? name = some ty ↔ (Asked.ofHub arguments).takes name ty :=
  Iff.rfl

theorem needs_ofHub (arguments : NameMap HubArgument) (name : String) :
    name ∈ (Judge.ofHub arguments).needed ↔ (Asked.ofHub arguments).needs name := by
  simp [Judge.ofHub, Asked.ofHub]

/-- What a call asks of its arguments is what they are judged by. -/
theorem Call.judges {asked : Asked} {check : List Tree → Check α} (h : Call e s asked check c) :
    ∃ j : Judge, Judges e s j check c ∧ (∀ name ty, j.type? name = some ty ↔ asked.takes name ty) ∧
      (∀ name, name ∈ j.needed ↔ asked.needs name) ∧
      ∀ given, ∀ code ∈ j.codes given, code ∈ argumentCodes := by
  have hparameters (parameters : List (String × Ty)) (given : List Supplied) :
      ∀ code ∈ (Judge.ofParameters parameters).codes given, code ∈ argumentCodes := fun code hcode => by
    rcases Judge.mem_codes hcode with rfl | rfl | rfl | rfl <;> simp [argumentCodes, Judge.ofParameters]
  have hhub (arguments : NameMap HubArgument) (given : List Supplied) :
      ∀ code ∈ (Judge.ofHub arguments).codes given, code ∈ argumentCodes := fun code hcode => by
    rcases Judge.mem_codes hcode with rfl | rfl | rfl | rfl <;> simp [argumentCodes, Judge.ofHub]
  cases h with
  | function named declared distinct =>
    exact ⟨_, judges_function named declared, takes_ofParameters distinct, fun _ => Iff.rfl, hparameters _⟩
  | mutation isNode checked known named found alone =>
    exact ⟨_, judges_mutation isNode checked known named found alone,
      takes_ofParameters (mutation_distinct found), fun _ => Iff.rfl, hparameters _⟩
  | callAsMutation isPath rooted bound mutates checked known named found alone =>
    exact ⟨_, judges_callAsMutation isPath rooted bound mutates checked known named found alone,
      takes_ofParameters (mutation_distinct found), fun _ => Iff.rfl, hparameters _⟩
  | command isPath rooted undotted unbound named registry known found =>
    exact ⟨_, judges_command isPath rooted undotted unbound named registry known found,
      takes_ofHub _, needs_ofHub _, hhub _⟩
  | event worded isPath rooted bound output named registry registered found body =>
    exact ⟨_, judges_event worded isPath rooted bound output named registry registered found body,
      takes_ofHub _, needs_ofHub _, hhub _⟩

/-- Whatever arguments are written in whatever order, what is reported of a call besides what is
reported of the values it is given and around it are reports on its arguments. There are none if
and only if the arguments are those that it asks for; and in another order the arguments are
checked as well, with the same reports. -/
theorem call_reports {asked : Asked} {check : List Tree → Check α} (call : Call e s asked check c)
    (row : List Tree) (h : check row s = .ok (a, t)) :
    ∃ own : Multiset Code, t.codes = own + within e s row + c + s.codes ∧
      (∀ code ∈ own, code ∈ argumentCodes) ∧ (own = 0 ↔ asked.Met (written e s row)) ∧
      ∀ row', row'.Perm row → ∃ a' t', check row' s = .ok (a', t') ∧
        t'.codes = own + within e s row' + c + s.codes := by
  obtain ⟨j, hjudges, htakes, hneeds, hcodes⟩ := call.judges
  have hrow : Checkable e s row := (hjudges row).1 s _ rfl h
  have hadds (row' : List Tree) (hperm : row'.Perm row) : ∃ a' t', check row' s = .ok (a', t') ∧
      t'.codes = j.codes (written e s row) + within e s row' + c + s.codes := by
    have hrow' : Checkable e s row' := fun q hq => hrow q (hperm.subset hq)
    obtain ⟨a', ha'⟩ := (hjudges row').2 hrow'
    obtain ⟨t', ht', -, hadded⟩ := ha' s rfl
    have hwritten : (written e s row').Perm (written e s row) := hperm.filterMap _
    exact ⟨a', t', ht', by rw [hadded, Judge.codes_perm hwritten]⟩
  obtain ⟨a', t', ht', hadded⟩ := hadds row (.refl row)
  obtain ⟨rfl, rfl⟩ := Prod.mk.inj (Except.ok.inj (h.symm.trans ht'))
  exact ⟨_, hadded, hcodes _, Judge.codes_eq_zero htakes hneeds, hadds⟩

/-- A function of two numbers is called with a name it does not take, a text, and one name again:
in every order that is reported, and what is missing. -/
theorem call_reports_wrong : ∃ (e : Env) (s : State) (asked : Asked) (check : List Tree → Check (Tree × Ty))
    (row : List Tree), ¬ asked.Met (written e s row) ∧ ∀ row', row'.Perm row →
      ∃ a t, check row' s = .ok (a, t) ∧ t.codes =
        {.unknownFunctionArgument, .argumentType, .repeatedArgument, .missingFunctionArgument} := by
  let name (text : String) : Token := ⟨.name, text, .first⟩
  let given (text : String) (rule : Rule) (kind : TokenKind) : Tree :=
    .of .argument [.token (name text), .of rule [.token ⟨kind, "1", .first⟩]]
  let signature : Signature := ⟨"add", [("a", .int), ("b", .int)], .int, .ofLine 1⟩
  let e : Env := ⟨.off, none, NameMap.empty.insert "add" signature, none⟩
  let s : State := ⟨.ofRoot .empty, [], .empty⟩
  let row := [given "c" .number .int, given "a" .string .string, given "a" .number .int]
  let check (row : List Tree) : Check (Tree × Ty) :=
    value e (.of .functionCall ([name "add"].map .token ++ .of .arguments row :: []))
  have call : Call e s (.ofParameters signature.parameters) check 0 := .function rfl rfl (by decide)
  have hrun : (check row s).toOption.map (fun out => out.2.codes) =
      some {.unknownFunctionArgument, .argumentType, .repeatedArgument, .missingFunctionArgument} := by
    decide +kernel
  obtain ⟨⟨a, t⟩, hout, hcodes⟩ := Option.map_eq_some_iff.1 hrun
  obtain ⟨own, hsum, -, -, hother⟩ := call_reports call row (toOption_eq_some.1 hout)
  refine ⟨e, s, .ofParameters signature.parameters, check, row, fun met => ?_, fun row' hperm => ?_⟩
  · have hnames : (written e s row).map (·.name) = ["c", "a", "a"] := by decide +kernel
    exact absurd (hnames ▸ met.distinct) (by decide)
  · obtain ⟨a', t', hrun', hsum'⟩ := hother row' hperm
    have hwithin : within e s row' = within e s row := by
      rw [within, within, Multiset.coe_eq_coe.2 hperm]
    exact ⟨a', t', hrun', by rw [hsum', hwithin, ← hsum, hcodes]⟩

end StoryLang.Check
