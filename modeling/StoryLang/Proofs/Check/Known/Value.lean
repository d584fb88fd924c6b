/-
What is known at a place when checking reports no error.

Reports only add up, so if there is no error at the end there was none before.
`Leads` says of a check that it adds to the reports, and what it comes to if
there is no error then. What is known of a step of a check is a premise of what
the rest of it comes to: the rest adds to the reports in any case.

Checking finds the type of every value that a script is made of, and reports
a path whose name is not known. So what is emitted of a value that was checked
without errors reads only what is known where it was checked.
-/
import StoryLang.Proofs.Check.Paired.Value
import StoryLang.Proofs.Check.Statement
import StoryLang.Proofs.Script.Known

namespace StoryLang

/-- Only the name that is declared is new to a scope. -/
theorem Scope.isSome_declare {s s' : Scope} {x : Binding} {n : String} (h : s.declare x = .ok s')
    (hn : (s'.get? n).isSome = true) : (s.get? n).isSome = true ∨ n = x.name := by
  rw [get?_declare h] at hn
  split at hn
  · exact .inr ‹_›
  · exact .inl hn

/-- The scopes in which a name was declared: those before, with it in the top one. -/
theorem Scopes.declare_ok {a b : Scopes} {x : Binding} (h : a.declare x = .ok b) :
    (∃ root, a.inner = [] ∧ a.root.declare x = .ok root ∧ b = ⟨[], root⟩) ∨
      ∃ top top' rest, a.inner = top :: rest ∧ top.declare x = .ok top' ∧
        b = ⟨top' :: rest, a.root⟩ := by
  obtain ⟨inner, root⟩ := a
  cases inner with
  | nil =>
    have h : (root.declare x).map (⟨[], ·⟩) = .ok b := h
    cases hroot : root.declare x with
    | error existing => simp [hroot, Except.map] at h
    | ok root' => exact .inl ⟨root', rfl, rfl, by simpa [hroot, Except.map] using h.symm⟩
  | cons top rest =>
    have h : (top.declare x).map (⟨· :: rest, root⟩) = .ok b := h
    cases htop : top.declare x with
    | error existing => simp [htop, Except.map] at h
    | ok top' => exact .inr ⟨top, top', rest, rfl, htop, by simpa [htop, Except.map] using h.symm⟩

namespace Check

variable {α β : Type} {r : Option Registry} {a b c : Scopes} {e : Env} {n : String}

/-- Something is known of a name with some scopes. -/
def Env.Knows (e : Env) (a : Scopes) (n : String) : Prop := (e.found a n).isSome = true

/-- How many scopes above the root are looked into. -/
def Env.reach (e : Env) (a : Scopes) : Nat :=
  match e.body with
  | some body => if e.features.globals then a.inner.length else a.depth - body.floor
  | none => a.inner.length

theorem Env.knows_iff : e.Knows a n ↔
    (∃ s ∈ a.inner.take (e.reach a), (s.get? n).isSome = true) ∨ (a.root.get? n).isSome = true := by
  have hfound : e.found a n =
      ((a.inner.take (e.reach a)).findSome? (·.get? n)).or (a.root.get? n) := by
    unfold found reach
    cases e.body with
    | none => simp [Scopes.get?]
    | some body => cases hg : e.features.globals <;> simp [Scopes.get?, Scopes.getFrom?]
  simp [Knows, hfound]

/-- Only the name that is declared becomes known. -/
theorem Env.Knows.of_declare {x : Binding} (h : a.declare x = .ok b) (hn : e.Knows b n) :
    e.Knows a n ∨ n = x.name := by
  obtain ⟨inner, root⟩ := a
  rw [knows_iff] at hn
  rw [knows_iff]
  rcases Scopes.declare_ok h with ⟨root', rfl, hroot, rfl⟩ | ⟨top, top', rest, rfl, htop, rfl⟩
  · simp only [List.take_nil, List.not_mem_nil, false_and, exists_false, false_or] at hn ⊢
    exact Scope.isSome_declare hroot hn
  · have hreach : e.reach ⟨top' :: rest, root⟩ = e.reach ⟨top :: rest, root⟩ := rfl
    rw [hreach] at hn
    cases hk : e.reach ⟨top :: rest, root⟩ with
    | zero => exact .inl (by simpa [hk] using hn)
    | succ k =>
      simp only [hk, List.take_succ_cons, List.exists_mem_cons_iff] at hn ⊢
      grind [Scope.isSome_declare htop]

/-- A new scope has no names. -/
theorem Env.Knows.of_push (h : e.Knows a.push n) : e.Knows a n := by
  rw [knows_iff] at h ⊢
  refine h.imp_left fun ⟨s, hs, hn⟩ => ⟨s, ?_, hn⟩
  have hle : e.reach a.push ≤ e.reach a + 1 := by
    unfold reach
    cases e.body with
    | none => simp [Scopes.push]
    | some body => cases e.features.globals <;> (simp [Scopes.push, Scopes.depth]; try omega)
  have hs := List.take_subset_take_left _ hle hs
  rw [Scopes.push, List.take_succ_cons, List.mem_cons] at hs
  rcases hs with rfl | hs
  · cases hn
  · exact hs

theorem Env.Knows.push (h : e.Knows a n) : e.Knows a.push n := by
  rw [knows_iff] at h ⊢
  refine h.imp_left (Exists.imp fun s => And.imp_left fun hs => ?_)
  cases hk : e.reach a with
  | zero => simp [hk] at hs
  | succ k =>
    have hreach : e.reach a.push = e.reach a + 1 := by
      revert hk
      unfold reach
      cases e.body with
      | none => simp [Scopes.push]
      | some body => cases e.features.globals <;> (simp [Scopes.push, Scopes.depth]; try omega)
    rw [hreach, Scopes.push, List.take_succ_cons]
    exact List.mem_cons_of_mem _ hs

theorem Env.knows_push : e.Knows a.push n ↔ e.Knows a n := ⟨.of_push, .push⟩

/-- With the variables of the story it does not matter in which function one is. -/
theorem Env.knows_globals (hg : e.features.globals = true) (body : Option Body) :
    ({ e with body } : Env).Knows a n ↔ e.Knows a n := by
  have h : ∀ body, ({ e with body } : Env).found a n = a.get? n := by
    intro body
    unfold found
    cases body <;> simp [hg]
  have h' := h e.body
  unfold Knows
  rw [h body, ← h']

/-- What the body of a function sees: the root, and what is around it if functions do. -/
theorem Env.knows_function {name : String} {returns : Ty} :
    ({ e with body := some ⟨name, returns, a.push.depth - 1⟩ } : Env).Knows a.push n ↔
      (a.root.get? n).isSome = true ∨ e.features.globals = true ∧ e.Knows a n := by
  cases hg : e.features.globals with
  | true =>
    rw [Env.knows_globals hg, Env.knows_push]
    exact ⟨fun h => .inr ⟨rfl, h⟩, fun h => h.elim (fun hn => Env.knows_iff.2 (.inr hn)) And.right⟩
  | false =>
    have hdepth : a.push.depth - (a.push.depth - 1) = 1 := by simp [Scopes.depth]
    have hnew : Scope.empty.get? n = none := rfl
    rw [Env.knows_iff]
    simp only [reach, hg, Bool.false_eq_true, if_false, hdepth, false_and, or_false]
    simp [Scopes.push, hnew]

/-- None of the reports so far is an error. -/
def State.Clean (s : State) : Prop := ∀ d ∈ s.reports, d.isError = false

theorem State.Since.clean {codes : Code → Bool} {s s' : State} (h : s.Since codes s') (hs : s'.Clean) : s.Clean := by
  obtain ⟨new, hr, -⟩ := h
  rw [Clean, hr] at hs
  exact (List.forall_mem_append.1 hs).2

/-- An internal error is an error. -/
theorem State.Clean.ofStory {s : State} (h : s.Clean) : s.OfStory := by
  intro d hd hcode
  have herror := h d hd
  simp [Diagnostic.isError, Diagnostic.severity, hcode, Code.definition] at herror

/-- With these scopes the check adds to the reports, and comes to what `post` says if none of
them is an error. -/
def Leads (a : Scopes) (x : Check α) (post : α → Scopes → Prop) : Prop :=
  ∀ s v s', s.scopes = a → x s = .ok (v, s') →
    s.Since Code.ofStory s' ∧ (s'.Clean → post v s'.scopes)

/-- The check leaves the scopes as they are besides. -/
def Shows (a : Scopes) (x : Check α) (post : α → Prop) : Prop :=
  ∀ s v s', s.scopes = a → x s = .ok (v, s') →
    s'.scopes = a ∧ s.Since Code.ofStory s' ∧ (s'.Clean → post v)

theorem leads_pure {v : α} {post : α → Scopes → Prop} (h : post v a) : Leads a (pure v) post := by
  rintro s _ _ rfl hx
  obtain ⟨rfl, rfl⟩ := Prod.mk.inj (Except.ok.inj hx)
  exact ⟨.refl rfl, fun _ => h⟩

theorem shows_pure {v : α} {post : α → Prop} (h : post v) : Shows a (pure v) post := by
  rintro s _ _ rfl hx
  obtain ⟨rfl, rfl⟩ := Prod.mk.inj (Except.ok.inj hx)
  exact ⟨rfl, .refl rfl, fun _ => h⟩

theorem Leads.bind {x : Check α} {f : α → Check β} {mid : α → Scopes → Prop}
    {post : β → Scopes → Prop} (h : Leads a x mid)
    (hf : ∀ v b, Leads b (f v) fun w c => mid v b → post w c) : Leads a (x >>= f) post := by
  intro s w s' ha hx
  obtain ⟨v, t, hx, hfx⟩ := bind_ok_iff.1 hx
  obtain ⟨hsince, hmid⟩ := h s v t ha hx
  obtain ⟨hsince', hpost⟩ := hf v t.scopes t w s' rfl hfx
  exact ⟨hsince.trans hsince', fun hs => hpost hs (hmid (hsince'.clean hs))⟩

theorem Shows.bind {x : Check α} {f : α → Check β} {mid : α → Prop} {post : β → Prop}
    (h : Shows a x mid) (hf : ∀ v, Shows a (f v) fun w => mid v → post w) : Shows a (x >>= f) post := by
  intro s w s' ha hx
  obtain ⟨v, t, hx, hfx⟩ := bind_ok_iff.1 hx
  obtain ⟨hscopes, hsince, hmid⟩ := h s v t ha hx
  obtain ⟨hscopes', hsince', hpost⟩ := hf v t w s' hscopes hfx
  exact ⟨hscopes', hsince.trans hsince', fun hs => hpost hs (hmid (hsince'.clean hs))⟩

/-- A check that leaves the scopes as they are, before one that may not. -/
theorem Shows.leads {x : Check α} {f : α → Check β} {mid : α → Prop} {post : β → Scopes → Prop}
    (h : Shows a x mid) (hf : ∀ v, Leads a (f v) fun w c => mid v → post w c) :
    Leads a (x >>= f) post := by
  intro s w s' ha hx
  obtain ⟨v, t, hx, hfx⟩ := bind_ok_iff.1 hx
  obtain ⟨hscopes, hsince, hmid⟩ := h s v t ha hx
  obtain ⟨hsince', hpost⟩ := hf v t w s' hscopes hfx
  exact ⟨hsince.trans hsince', fun hs => hpost hs (hmid (hsince'.clean hs))⟩

theorem Leads.mono {x : Check α} {post post' : α → Scopes → Prop} (h : Leads a x post)
    (hp : ∀ v b, post v b → post' v b) : Leads a x post' :=
  fun s v s' ha hx => (h s v s' ha hx).imp_right fun hpost hs => hp v s'.scopes (hpost hs)

theorem Shows.mono {x : Check α} {post post' : α → Prop} (h : Shows a x post)
    (hp : ∀ v, post v → post' v) : Shows a x post' :=
  fun s v s' ha hx => (h s v s' ha hx).imp_right (.imp_right fun hpost hs => hp v (hpost hs))

/-- What the contract of a check ensures is known too. -/
theorem Ensures.clean {x : Check α} {post : α → Prop} {s s' : State} {v : α} (he : Ensures r x post)
    (hx : x s = .ok (v, s')) (hsince : s.Since Code.ofStory s') (hs : s'.Clean) : post v := by
  have he := he s (hsince.clean hs).ofStory
  rw [hx] at he
  exact he.2

theorem Shows.also {x : Check α} {post post' : α → Prop} (h : Shows a x post)
    (he : Ensures r x post') : Shows a x fun v => post v ∧ post' v := by
  intro s v s' ha hx
  obtain ⟨hscopes, hsince, hpost⟩ := h s v s' ha hx
  exact ⟨hscopes, hsince, fun hs => ⟨hpost hs, he.clean hx hsince hs⟩⟩

theorem Leads.also {x : Check α} {post : α → Scopes → Prop} {post' : α → Prop} (h : Leads a x post)
    (he : Ensures r x post') : Leads a x fun v b => post v b ∧ post' v := by
  intro s v s' ha hx
  obtain ⟨hsince, hpost⟩ := h s v s' ha hx
  exact ⟨hsince, fun hs => ⟨hpost hs, he.clean hx hsince hs⟩⟩

theorem Logs.shows {x : Check α} (h : Logs Code.ofStory r x) : Shows a x fun _ => True := by
  rintro s v s' rfl hx
  have h := h s
  rw [hx] at h
  exact ⟨h.1.1, h.2.1, fun _ => trivial⟩

theorem Quiet.shows {x : Check α} {post : α → Prop} (h : Quiet Code.ofUse r x post) :
    Shows a x post := by
  rintro s v s' rfl hx
  have h := h s
  rw [hx] at h
  exact ⟨h.1.1, h.2.1.mono fun _ => Code.ofUse.ofStory, fun _ => h.2.2⟩

/-- A check that only reports, before the rest. -/
theorem Reports.shows {x : Check α} {f : α → Check β} {post : β → Prop} (h : Reports r x)
    (hf : ∀ v, Shows a (f v) post) : Shows a (x >>= f) post :=
  Shows.bind (Quiet.shows h) fun v => (hf v).mono fun _ hp _ => hp

theorem Logs.leads {x : Check α} {f : α → Check β} {post : β → Scopes → Prop}
    (h : Logs Code.ofStory r x) (hf : ∀ v, Leads a (f v) post) : Leads a (x >>= f) post :=
  Shows.leads (Logs.shows h) fun v => (hf v).mono fun _ _ hp _ => hp

theorem Reports.leads {x : Check α} {f : α → Check β} {post : β → Scopes → Prop}
    (h : Reports r x) (hf : ∀ v, Leads a (f v) post) : Leads a (x >>= f) post :=
  Logs.leads (Quiet.ofStory h) hf

theorem shows_report {code : Code} {args : List String} {place : Option Position}
    {f : Unit → Check α} {post : α → Prop} (h : code.ofUse = true) (hf : ∀ u, Shows a (f u) post) :
    Shows a (report code args place >>= f) post :=
  Reports.shows (r := none) (reports_report h) hf

/-- An error leaves nothing to be told. -/
theorem shows_error {code : Code} {args : List String} {place : Option Position}
    (hc : code.ofStory = true) (h : code.definition.severity = .error) :
    Shows a (report code args place) fun _ => False := by
  rintro s _ _ rfl hx
  obtain ⟨-, rfl⟩ := Prod.mk.inj (Except.ok.inj hx)
  refine ⟨rfl, ⟨[_], rfl, List.forall_mem_singleton.2 ?_⟩, fun hs => ?_⟩
  · cases place <;> exact hc
  · have herror := hs _ List.mem_cons_self
    cases place <;>
      simp [Diagnostic.isError, Diagnostic.severity, Diagnostic.ofCode, Diagnostic.placed, h] at herror

/-! ## Looking up and declaring -/

theorem shows_lookup : Shows a (lookup e n) (· = e.found a n) := by
  rintro s _ _ rfl hx
  rw [lookup_eq] at hx
  obtain ⟨rfl, rfl⟩ := Prod.mk.inj (Except.ok.inj hx)
  exact ⟨rfl, .refl rfl, fun _ => rfl⟩

theorem shows_useService {name : String} : Shows a (useService name) fun _ => True := by
  rintro s _ _ rfl hx
  obtain ⟨-, rfl⟩ := Prod.mk.inj (Except.ok.inj hx)
  exact ⟨rfl, .refl rfl, fun _ => trivial⟩

theorem shows_topNumber : Shows a topNumber (· = a.depth - 1) := by
  rintro s _ _ rfl hx
  obtain ⟨rfl, rfl⟩ := Prod.mk.inj (Except.ok.inj hx)
  exact ⟨rfl, .refl rfl, fun _ => rfl⟩

theorem leads_push : Leads a push fun _ b => b = a.push := by
  rintro s _ _ rfl hx
  obtain ⟨-, rfl⟩ := Prod.mk.inj (Except.ok.inj hx)
  exact ⟨.refl rfl, fun _ => rfl⟩

theorem leads_pop : Leads a pop fun _ b => b = a.dropTop := by
  rintro s _ _ rfl hx
  obtain ⟨-, rfl⟩ := Prod.mk.inj (Except.ok.inj hx)
  exact ⟨.refl rfl, fun _ => rfl⟩

/-- The scopes are those from before with at most some names more, all in the top scope. -/
structure Gains (a b : Scopes) (names : List String) : Prop where
  above : a.inner ≠ [] → b.Over a
  known : ∀ e n, Env.Knows e b n → e.Knows a n ∨ n ∈ names

theorem Gains.refl : Gains a a [] := ⟨.refl, fun _ _ h => .inl h⟩

theorem Gains.trans {ms ns : List String} (h : Gains a b ms) (h' : Gains b c ns) :
    Gains a c (ms ++ ns) where
  above ha := (h'.above (h.above ha).opened).trans (h.above ha)
  known e n hn := by
    rcases h'.known e n hn with hn | hn
    · exact (h.known e n hn).imp_right fun hn => by simp [hn]
    · exact .inr (by simp [hn])

theorem leads_declare {name : String} {ty : Ty} {line : Option Coord} {place : Position} :
    Leads a (declare name ty line place) fun _ b => Gains a b [name] := by
  rintro s v s' rfl hx
  unfold declare at hx
  cases h : s.scopes.declare ⟨name, ty, line⟩ with
  | ok scopes =>
    rw [h] at hx
    obtain ⟨-, rfl⟩ := Prod.mk.inj (Except.ok.inj hx)
    refine ⟨.refl rfl, fun _ => ⟨fun ha => ?_, fun e n hn => by simpa using hn.of_declare h⟩⟩
    rcases Scopes.declare_ok h with ⟨_, hnil, -, -⟩ | ⟨top, top', rest, hinner, -, rfl⟩
    · exact absurd hnil ha
    · exact ⟨by simp, by simp [Scopes.dropTop, hinner]⟩
  | error existing =>
    rw [h] at hx
    have herror : Shows s.scopes (report .alreadyDeclared [name, existing.lineText] (some place))
        fun _ => False := shows_error rfl rfl
    exact (herror s v s' rfl hx).2.imp_right fun h hs => (h hs).elim

theorem leads_declareAll {line : Option Coord} {names : List Token} {tys : List Ty} :
    Leads a (declareAll line names tys) fun _ b => Gains a b (names.map (·.literal)) := by
  induction names generalizing a tys with
  | nil => exact leads_pure .refl
  | cons name names ih => exact leads_declare.bind fun _ _ => ih.mono fun _ _ h hd => hd.trans h

/-- What is checked in a scope of its own. -/
theorem leads_inOwnScope {x : Check α} {post : Scopes → α → Scopes → Prop}
    (h : ∀ b, Leads b x (post b)) :
    Leads a (inOwnScope x) fun v c => ∃ d, post a.push v d ∧ c = d.dropTop := by
  unfold inOwnScope
  refine leads_push.bind fun _ b => (h b).bind fun v c => leads_pop.bind fun _ d => leads_pure ?_
  rintro rfl hv rfl
  exact ⟨c, hv, rfl⟩

end Check

end StoryLang

/-! ## Values -/

namespace StoryLang.Check

open Value (Emits EmitsAll ofTree ofFirst ofEntries ofPathParts ofArguments ofArgument)
open Script (Fills fill)

variable {g : Grammar} {e : Env} {a : Scopes} {t : Tree} {rule : Rule} {line : Option Coord}
  {ps : List Tree} {known : String → Prop}

/-- What checking a row of parts shows, whichever way it is followed. -/
structure RowShows (e : Env) (ps : List Tree) : Prop where
  firsts : ∀ a n, Shows a (firsts e n ps) fun out => EmitsAll (e.Knows a) (ofFirst n out.1)
  entries : ∀ a, Shows a (entries e ps) fun out => EmitsAll (e.Knows a) (ofEntries out.1)
  fragments : (∀ p ∈ ps, p.isNode = true → p.isA .pathFragment = true) → ∀ a ty,
    Shows a (fragments e ty ps) fun out => EmitsAll (e.Knows a) (ofPathParts out.1)
  arguments : ∀ a, Shows a (argumentsOf e ps) fun out =>
    EmitsAll (e.Knows a) (ofArguments (Tree.putFirst .arguments out.1 ps))
  supplied : ∀ a seen, Shows a (suppliedBy e seen ps) fun out =>
    EmitsAll (e.Knows a) ((out.1.filter Tree.isNode).mapM ofArgument)

/-- What checking a value shows. -/
structure ValueShows (e : Env) (t : Tree) : Prop where
  value : ∀ a, Shows a (value e t) fun out =>
    Emits (e.Knows a) (ofTree out.1) ∧ Fills (e.Knows a) out.1
  rows : RowShows e t.parts

theorem RowShows.nil : RowShows e [] where
  firsts _ n := by
    cases n <;> exact shows_pure Value.emitsAll_nil
  entries _ := shows_pure Value.emitsAll_nil
  fragments _ _ _ := shows_pure Value.emitsAll_nil
  arguments _ := shows_pure Value.emitsAll_nil
  supplied _ _ := shows_pure Value.emitsAll_nil

theorem putFirst_cons {p : Tree} {new : Option Tree} (hp : p.isA rule = false) :
    Tree.putFirst rule new (p :: ps) = p :: Tree.putFirst rule new ps := by
  cases new with
  | none => cases ps <;> rfl
  | some n => simp [Tree.putFirst, hp]

theorem ofArguments_cons {p : Tree} (hp : p.isA .arguments = false) :
    ofArguments (p :: ps) = ofArguments ps := by
  simp [ofArguments, hp]

theorem RowShows.token {u : Token} (h : RowShows e ps) : RowShows e (.token u :: ps) where
  firsts a n := by
    unfold Check.firsts
    refine (h.firsts a n).bind fun out => shows_pure fun ho => ?_
    simpa [ofFirst] using ho
  entries a := by
    unfold Check.entries
    exact (h.entries a).bind fun out => shows_pure id
  fragments hf a ty := by
    simp only [List.forall_mem_cons] at hf
    unfold Check.fragments
    refine (h.fragments hf.2 a ty).bind fun out => shows_pure fun ho => ?_
    exact (Value.emits_ok (.of_nil rfl)).cons ho
  arguments a := by
    unfold argumentsOf
    refine (h.arguments a).mono fun out ho => ?_
    rwa [putFirst_cons rfl, ofArguments_cons rfl]
  supplied a seen := by
    unfold suppliedBy
    refine (h.supplied a seen).bind fun out => shows_pure fun ho => ?_
    simpa [Tree.isNode] using ho

/-- A fragment with a dot is a field, and reads nothing. -/
theorem emits_field {inner : List Tree} (hf : Formed Token.Sound g .plain (.node rule line inner))
    (hr : rule = .pathFragment) (hdot : (tokensOf inner).any (·.kind = .symbol .dot) = true) :
    Emits known (Value.ofPathPart inner) := by
  subst hr
  cases hf with
  | node content _ _ =>
    cases content with
    | @field _ dot name kind named =>
      have hname : ([dot, name] : List Token).find? (·.kind = .name) = some name := by
        simp [kind, named]
      simp only [Value.ofPathPart, List.filterMap_cons, Tree.asToken?, List.filterMap_nil, hname]
      exact Value.emits_ok (.of_nil rfl)
    | @index _ opening v closing opens value closes =>
      obtain ⟨_, _, _, rfl, -⟩ := Tree.fits_iff.1 value
      simp [tokensOf, Tree.asToken?, opens, closes] at hdot

theorem RowShows.node {inner : List Tree} (hn : Formed Token.Sound g .plain (.node rule line inner))
    (ht : ValueShows e (.node rule line inner)) (h : RowShows e ps) :
    RowShows e (.node rule line inner :: ps) where
  firsts a n := by
    cases n with
    | zero =>
      unfold Check.firsts
      refine shows_pure ?_
      exact Value.emitsAll_nil
    | succ n =>
      unfold Check.firsts
      refine ((ht.value a).also ((checks_of_formed hn).value e)).bind fun out => ?_
      refine (h.firsts a n).bind fun rest => shows_pure fun hrest ho => ?_
      obtain ⟨t', ty⟩ := out
      obtain ⟨⟨hemits, -⟩, hretold, -⟩ := ho
      cases hretold.retells with
      | same => exact hemits.cons hrest
      | call => exact hemits.cons hrest
  entries a := by
    unfold Check.entries
    refine (ht.rows.firsts a 2).bind fun out => (h.entries a).bind fun rest => shows_pure ?_
    exact fun hrest ho => ho.entry hrest
  fragments hf a ty := by
    simp only [List.forall_mem_cons] at hf
    have hr : rule = .pathFragment := by simpa [Tree.isA, Tree.rule?] using hf.1 rfl
    unfold Check.fragments
    split
    · rename_i hdot
      have hfield : Emits (e.Knows a) (Value.ofPathPart inner) := emits_field hn hr hdot
      have rest : ∀ ty, Shows a (Check.fragments e ty ps >>= fun out =>
          pure (.node rule line inner :: out.1, out.2)) fun out =>
            EmitsAll (e.Knows a) (ofPathParts out.1) :=
        fun ty => (h.fragments hf.2 a ty).bind fun out => shows_pure fun ho => hfield.part ho
      split
      · exact rest ty
      · exact (reports_fieldType (r := none)).shows rest
    · refine (ht.rows.firsts a 1).bind fun out => (reports_indexType (r := none)).shows fun ty => ?_
      refine (h.fragments hf.2 a ty).bind fun rest => shows_pure fun hrest ho => ?_
      exact ho.ofPathPart.part hrest
  arguments a := by
    by_cases hr : rule = .arguments
    · subst hr
      unfold argumentsOf
      refine (ht.rows.supplied a []).bind fun out => shows_pure fun ho => ?_
      simpa [Tree.putFirst, ofArguments, Tree.isA, Tree.rule?, Tree.nodes, Tree.parts] using ho
    · have hne : (Tree.node rule line inner).isA .arguments = false := by
        simp [Tree.isA, Tree.rule?, hr]
      have hc : argumentsOf e (.node rule line inner :: ps) = argumentsOf e ps := by
        cases rule <;> first | exact absurd rfl hr | rfl
      rw [hc]
      refine (h.arguments a).mono fun out ho => ?_
      rwa [putFirst_cons hne, ofArguments_cons hne]
  supplied a seen := by
    unfold suppliedBy
    split
    · rename_i hnone
      refine (h.supplied a seen).bind fun out => shows_pure fun ho => ?_
      -- an argument without a name has no value
      have hno : Emits (e.Knows a) (ofArgument (.node rule line inner)) := by
        intro v hv
        simp [ofArgument, Tree.firstToken?, hnone] at hv
      rw [List.filter_cons_of_pos rfl, List.mapM_cons]
      exact hno.cons ho
    · rename_i name _
      have rest : Shows a (Check.firsts e 1 inner >>= fun out =>
          suppliedBy e (name.literal :: seen) ps >>= fun others =>
          pure (Tree.node rule line out.1 :: others.1,
            (⟨name.literal, out.2.getD 0 .any, name.position⟩ : Supplied) :: others.2)) fun out =>
            EmitsAll (e.Knows a) ((out.1.filter Tree.isNode).mapM ofArgument) := by
        refine (ht.rows.firsts a 1).bind fun out => (h.supplied a _).bind fun others => ?_
        refine shows_pure fun hothers ho => ?_
        rw [List.filter_cons_of_pos rfl, List.mapM_cons]
        exact ho.ofArgument.cons hothers
      split
      · exact shows_report rfl fun _ => rest
      · exact rest

theorem RowShows.of (hf : ∀ p ∈ ps, Formed Token.Sound g .plain p) (h : ∀ p ∈ ps, ValueShows e p) :
    RowShows e ps :=
  Tree.byRow (fun p hp => And.intro (hf p hp) (h p hp)) .nil .token fun hp => .node hp.1 hp.2

/-! ## Mutations -/

theorem shows_links (h : ∀ p ∈ ps, ValueShows e p) (a : Scopes) (ty : Ty) :
    Shows a (links e ty ps) fun out =>
      EmitsAll (e.Knows a) ((out.1.filter (·.isA .mutationFragment)).mapM Value.ofMutation) := by
  induction ps generalizing ty with
  | nil => exact shows_pure Value.emitsAll_nil
  | cons p ps ih =>
    simp only [List.forall_mem_cons] at h
    have skip : p.isA .mutationFragment = false → ∀ ty, Shows a (links e ty ps >>= fun out =>
        pure (p :: out.1, out.2)) fun out =>
          EmitsAll (e.Knows a) ((out.1.filter (·.isA .mutationFragment)).mapM Value.ofMutation) := by
      refine fun hp ty => (ih h.2 ty).bind fun out => shows_pure fun ho => ?_
      rwa [List.filter_cons_of_neg (by simp [hp])]
    cases p with
    | token u => exact skip rfl ty
    | node r l inner =>
      by_cases hr : r = .mutationFragment
      · subst hr
        unfold links
        refine (h.1.rows.arguments a).bind fun out => (reports_mutationCall (r := none)).shows fun ty => ?_
        refine (ih h.2 ty).bind fun rest => shows_pure fun hrest ho => ?_
        rw [List.filter_cons_of_pos rfl, List.mapM_cons]
        exact (Script.emits_ofMutation ho).cons hrest
      · have hc : links e ty (.node r l inner :: ps) =
            links e ty ps >>= fun out => pure (.node r l inner :: out.1, out.2) := by
          cases r <;> first | exact absurd rfl hr | rfl
        rw [hc]
        exact skip (by simp [Tree.isA, Tree.rule?, hr]) ty

/-- A call that is a mutation. -/
theorem shows_callAsMutation (hf : Formed Token.Sound g .plain (.node .serviceCall line ps))
    (hc : ∀ p ∈ ps, ValueShows e p) (a : Scopes) :
    Shows a (callAsMutation e ps) fun out => Fills (e.Knows a) (.node .mutation line out.1) := by
  cases hf with
  | node content own parts =>
    cases content with
    | @serviceCall _ subject command given extra path named arguments extras =>
      obtain ⟨sline, sps, rfl⟩ := Tree.isA_iff.1 path
      obtain ⟨gline, gps, rfl⟩ := Tree.isA_iff.1 arguments
      simp only [List.forall_mem_cons] at parts hc
      have hkept : ∀ p ∈ extra, inLink p = false ∧ p.isA .mutationFragment = false := by
        intro p hp
        rcases extras.each p hp with h | h <;> obtain ⟨_, _, rfl⟩ := Tree.isA_iff.1 h <;>
          exact ⟨rfl, rfl⟩
      have hrest : ∀ p ∈ (.token command :: .node .arguments gline gps :: extra : List Tree),
          ValueShows e p ∧ p.isA .mutationFragment = false := by
        simp only [List.forall_mem_cons]
        exact ⟨⟨hc.2.1, rfl⟩, ⟨hc.2.2.1, rfl⟩, fun p hp => ⟨hc.2.2.2 p hp, (hkept p hp).2⟩⟩
      unfold callAsMutation
      refine ((hc.1.value a).also ((checks_of_formed parts.1).value e)).bind fun out => ?_
      unfold argumentsOf argumentsOf
      simp only [bind_assoc, pure_bind]
      refine (hc.2.2.1.rows.supplied a []).bind fun given => ?_
      refine (reports_mutationCall (r := none)).shows fun ty => ?_
      refine ((shows_links (fun p hp => (hrest p hp).1) a ty).also
        (ensures_noLinks (e := e) fun p hp => (hrest p hp).2)).bind fun rest => shows_pure ?_
      rintro ⟨-, hsame⟩ hgiven ⟨⟨hemits, -⟩, hretold, -⟩
      have hput : Tree.putFirst .arguments (some (.node .arguments gline given.1)) rest.1 =
          .token command :: .node .arguments gline given.1 :: extra := by
        simp [hsame, Tree.putFirst, Tree.isA, Tree.rule?]
      dsimp only
      rw [hput, asMutation_eq rfl fun p hp => (hkept p hp).1]
      refine .of_mutation hretold.retells.isNode (hretold.retells.isA_eq rfl) hemits ?_
      have hnone : extra.filter (·.isA .mutationFragment) = [] :=
        List.filter_eq_nil_iff.2 fun p hp => by simp [(hkept p hp).2]
      rw [List.filter_cons_of_pos rfl, hnone, List.mapM_cons]
      refine (Script.emits_ofMutation ?_).cons Value.emitsAll_nil
      simpa [ofArguments, Tree.isA, Tree.rule?, Tree.nodes, Tree.parts] using hgiven

/-! ## Values -/

/-- What is no value and no call is emitted neither by itself nor with a record. -/
theorem emits_none {known : String → Prop} {f : Fault} (hc : t.isCall = false)
    (h : ofTree t = .error f) : Emits known (ofTree t) ∧ Fills known t := by
  have hemits : Emits known (ofTree t) := by
    rw [h]
    nofun
  exact ⟨hemits, .of_emits hc hemits⟩

theorem shows_of_formed (h : Formed Token.Sound g .plain t) : ValueShows e t := by
  induction h with
  | token u => exact ⟨fun a => shows_pure (emits_none rfl rfl), .nil⟩
  | @node rule line ps content own parts ih =>
    have hf : Formed Token.Sound g .plain (.node rule line ps) := .node content own parts
    have rows : RowShows e ps := .of parts ih
    refine ⟨fun a => ?_, rows⟩
    -- a value that is no call, with its parts checked
    have hvalue : ∀ {ps' : List Tree}, rule.isCall = false →
        Emits (e.Knows a) (ofTree (.node rule line ps')) →
          Emits (e.Knows a) (ofTree (.node rule line ps')) ∧ Fills (e.Knows a) (.node rule line ps') :=
      fun hr h => ⟨h, .of_emits (by simp [Tree.isCall, Tree.rule?, hr]) h⟩
    cases rule with
    | number => exact shows_pure (hvalue rfl (.after Value.emits_ofNumber))
    | string => exact shows_pure (hvalue rfl (.after fun _ => Value.emits_ok (.of_nil rfl)))
    | boolean => exact shows_pure (hvalue rfl (.after fun _ => Value.emits_ok (.of_nil rfl)))
    | null => exact shows_pure (hvalue rfl (Value.emits_ok (.of_nil rfl)))
    | list =>
      unfold value
      refine ((rows.firsts a _).also ((checks_of_formed hf).rows.firsts e _)).bind fun out =>
        shows_pure fun ho => hvalue rfl ?_
      obtain ⟨ho, hretold⟩ := ho
      replace ho : EmitsAll (e.Knows a) (ofFirst ps.length out.1) := ho
      rw [show ps.length = out.1.length from hretold.length_eq] at ho
      exact ho.made fun _ => rfl
    | map =>
      unfold value
      refine (rows.entries a).bind fun out => shows_pure fun ho => hvalue rfl ?_
      exact EmitsAll.made ho fun _ => rfl
    | path =>
      cases content with
      | @path _ root fs kind each =>
        have hparts : ∀ p ∈ (.token root :: fs : List Tree), p.isNode = true →
            p.isA .pathFragment = true :=
          List.forall_mem_cons.2 ⟨by simp [Tree.isNode], fun p hp _ => each p hp⟩
        unfold value
        simp only [Tree.firstTokenOf?, Tree.firstToken?, Option.some_or]
        refine shows_lookup.bind fun found => ?_
        split
        · have herror : Shows a (report .unknownVariable [root.literal] (some root.position))
              fun _ => False := shows_error rfl rfl
          exact herror.bind fun _ => shows_pure fun h => h.elim
        · rename_i binding
          refine ((rows.fragments hparts a binding.ty).also
            ((checks_of_formed hf).rows.fragments e binding.ty)).bind fun out => shows_pure ?_
          rintro ⟨hemits, hretold⟩ hfound
          refine hvalue rfl ?_
          obtain ⟨ps', ty⟩ := out
          obtain ⟨p', fs', hp', -, rfl⟩ := List.forall₂_cons_left_iff.1 hretold
          cases hp'.retells
          exact hemits.path (by rw [Env.Knows, ← hfound]; rfl)
    | binaryExpression =>
      cases content with
      | @binary _ left sign right first operator second =>
        unfold value
        refine ((rows.firsts a _).also ((checks_of_formed hf).rows.firsts e _)).bind fun out =>
          (reports_betweenType (r := none)).shows fun ty => shows_pure fun ho => hvalue rfl ?_
        obtain ⟨ps', tys⟩ := out
        obtain ⟨hemits, hretold⟩ := ho
        -- the operands are all the nodes there are
        have hall : EmitsAll (e.Knows a) (ofFirst ps'.length ps') := by
          have hretold : List.Forall₂ (Retold g) [left, .token sign, right] ps' := hretold
          simp only [List.forall₂_cons_left_iff, List.forall₂_nil_left_iff] at hretold
          obtain ⟨l, _, hl, ⟨s, _, hs, ⟨r, _, hr, rfl, rfl⟩, rfl⟩, rfl⟩ := hretold
          obtain ⟨_, _, _, rfl, -⟩ := Tree.fits_iff.1 first
          obtain ⟨_, _, _, rfl, -⟩ := Tree.fits_iff.1 second
          cases hs.retells
          cases hl.retells <;> cases hr.retells <;> exact hemits
        refine .after fun operator => hall.bind fun vs hvs => .after fun operation => ?_
        exact Value.emits_ok (.of_parts rfl hvs)
    | unaryExpression =>
      unfold value
      refine (rows.firsts a 1).bind fun out =>
        (reports_beforeType (r := none)).shows fun ty => shows_pure fun ho => hvalue rfl ?_
      refine .after fun operator => ?_
      dsimp only
      split
      · exact Value.emits_error
      · exact EmitsAll.made ho fun _ => rfl
    | cast =>
      unfold value
      refine (rows.firsts a 1).bind fun out =>
        (reports_castType (r := none)).shows fun ty => shows_pure fun ho => hvalue rfl ?_
      refine .after fun types => (ho.ofNode _).bind fun v hv => Value.emits_ok ?_
      exact .of_parts (by simp [Value.paths, Value.pathsAll, Value.paths_ofTypes]) (List.forall_mem_singleton.2 hv)
    | expressionStatement =>
      unfold value
      refine (rows.firsts a 1).bind fun out => shows_pure fun ho => hvalue rfl ?_
      exact ho.ofNode _
    | serviceCall =>
      have kept : ∀ {given : Option Tree},
          EmitsAll (e.Knows a) (ofArguments (Tree.putFirst .arguments given ps)) →
          Emits (e.Knows a) (ofTree (.node .serviceCall line (Tree.putFirst .arguments given ps))) ∧
            Fills (e.Knows a) (.node .serviceCall line (Tree.putFirst .arguments given ps)) :=
        fun h => ⟨Value.emits_error, .of_arguments (.inl rfl) h⟩
      -- nothing is made of a call without a name
      have alone : (ps.find? (·.isA .path)).bind Tree.firstToken? = none → ∀ ty : Ty,
          Shows a (pure (Tree.node .serviceCall line ps, ty)) fun out =>
            Emits (e.Knows a) (ofTree out.1) ∧ Fills (e.Knows a) out.1 := by
        refine fun hnone ty => shows_pure ⟨Value.emits_error, fun r r' hr => ?_⟩
        obtain ⟨service, hservice, -⟩ := ok_of_bind hr
        simp [Tree.find?, Tree.parts, hnone, Value.orDefect] at hservice
      unfold value
      split
      · rename_i hnone
        exact alone (by rw [hnone]; rfl) _
      · rename_i path hpath
        split
        · rename_i hnone
          exact alone (by rw [hpath]; exact hnone) _
        · dsimp only
          refine shows_lookup.bind fun found => ?_
          split
          · split
            · refine shows_report rfl fun _ => (rows.arguments a).bind fun out => ?_
              exact shows_pure fun ho _ => kept ho
            · refine (rows.arguments a).bind fun out => ?_
              rw [commandCall_eq]
              simp only [bind_assoc]
              refine shows_useService.bind fun _ => reports_commanded.shows fun ty => ?_
              exact shows_pure fun _ ho _ => kept ho
          · split
            · refine (rows.arguments a).bind fun out => shows_pure fun ho _ => kept ho
            · refine (shows_callAsMutation hf ih a).bind fun out => shows_pure fun ho _ => ?_
              exact ⟨Value.emits_error, ho⟩
    | mutation =>
      cases content with
      | @mutation subject link extra fits linked extras =>
        have hsub : subject.isA .mutationFragment = false := Tree.fits_isA fits ⟨rfl, rfl⟩
        obtain ⟨_, _, _, rfl, -⟩ := Tree.fits_iff.1 fits
        simp only [List.forall_mem_cons] at parts ih
        unfold value mutation
        simp only [bind_assoc, pure_bind]
        refine ((ih.1.value a).also ((checks_of_formed parts.1).value e)).bind fun out => ?_
        refine (shows_links (List.forall_mem_cons.2 ih.2) a _).bind fun rest => shows_pure ?_
        rintro hlinks ⟨⟨hemits, -⟩, hretold, -⟩
        exact ⟨Value.emits_error, .of_mutation hretold.retells.isNode ((hretold.retells.isA_eq rfl).trans hsub)
          hemits hlinks⟩
    | functionCall =>
      unfold value
      refine (rows.arguments a).bind fun out => (reports_functionCall (r := none)).shows fun ty => ?_
      exact shows_pure fun ho => ⟨Value.emits_error, .of_arguments (.inr rfl) ho⟩
    | _ => exact shows_pure (emits_none rfl rfl)

end StoryLang.Check
