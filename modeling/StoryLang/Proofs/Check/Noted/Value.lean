/-
Which services a check notes.

A check notes the name that is called or listened to, where it is not known.
Nothing else notes a service: values leave the scopes and the services as they
are, and a declaration only adds names. So with no error, statements note what
they use (`Script.Uses`), where known is what the check finds in its scopes.
-/
import StoryLang.Proofs.Check.Again.Statement
import StoryLang.Proofs.Check.Outputs
import StoryLang.Proofs.Script.Called

namespace StoryLang

/-- Rules of nodes that have neither calls of services nor statements in them. -/
def Rule.callsNothing : Rule → Bool
  | .number | .string | .boolean | .null | .list | .map | .mapItem | .path | .pathFragment
  | .unaryExpression | .cast | .binaryExpression | .types | .functionCall | .mutationFragment
  | .arguments | .argument | .expressionStatement => true
  | _ => false

namespace Check

open Script (rootOf? calledIn? calledBy)

variable {α β : Type} {r : Option Registry} {g : Grammar} {e : Env} {a b : Scopes} {m k : NameMap Unit}
  {rule : Rule} {line : Option Coord} {t : Tree} {ps ts : List Tree} {n : String} {s s' : State}

/-! ## Checks that change nothing but the reports -/

/-- The check adds to the reports and changes nothing else. -/
def Silent (x : Check α) : Prop := ∀ s v s', x s = .ok (v, s') →
  s'.scopes = s.scopes ∧ s'.services = s.services ∧ s.Since Code.ofStory s'

theorem silent_pure {v : α} : Silent (pure v) := by
  intro s _ _ hx
  obtain ⟨rfl, rfl⟩ := pure_ok_iff.1 hx
  exact ⟨rfl, rfl, .refl rfl⟩

theorem Silent.bind {x : Check α} {f : α → Check β} (h : Silent x) (hf : ∀ v, Silent (f v)) :
    Silent (x >>= f) := by
  intro s w s' hx
  obtain ⟨v, u, hx, hfx⟩ := bind_ok_iff.1 hx
  obtain ⟨hscopes, hservices, hsince⟩ := h s v u hx
  obtain ⟨hscopes', hservices', hsince'⟩ := hf v u w s' hfx
  exact ⟨hscopes'.trans hscopes, hservices'.trans hservices, hsince.trans hsince'⟩

theorem Reports.silent {x : Check α} (h : Reports r x) : Silent x := by
  intro s v s' hx
  have h := h s
  rw [hx] at h
  exact ⟨h.1.1, h.1.2, h.2.1.mono fun _ => Code.ofUse.ofStory⟩

/-- The services are those from before. -/
def unchanged : Steps fun _ => False where
  rel s t := t.services = s.services
  trans h h' := h'.trans h
  reported _ hservices _ := hservices
  used h := h.elim
  declared _ := rfl
  redeclared := rfl
  closed h := h

theorem Shows.silent {x : Check α} {post : Scopes → α → Prop} (h : ∀ a, Shows a x (post a)) (hk : Keeps unchanged.toReporting x) :
    Silent x := by
  intro s v s' hx
  obtain ⟨hscopes, hsince, -⟩ := h s.scopes s v s' rfl hx
  exact ⟨hscopes, hk s v s' hx, hsince⟩

/-! ## Values -/

/-- A part of a plain story that no service is called in. -/
structure Calm (g : Grammar) (t : Tree) : Prop where
  formed : Formed Token.Sound g .plain t
  rule : t.rule?.all Rule.callsNothing = true

theorem calm_fits (hf : Formed Token.Sound g .plain t) (h : t.fits .plain = true) : Calm g t := by
  obtain ⟨rule, line, ps, rfl, hr⟩ := Tree.fits_iff.1 h
  refine ⟨hf, ?_⟩
  rcases hr with hr | ⟨hs, -⟩
  · cases rule <;> first | rfl | cases hr
  · cases hs

theorem calm_isA (hf : Formed Token.Sound g .plain t) (h : t.isA rule = true)
    (hr : rule.callsNothing = true) : Calm g t := by
  obtain ⟨line, ps, rfl⟩ := Tree.isA_iff.1 h
  exact ⟨hf, hr⟩

theorem calm_token {u : Token} : Calm g (.token u) := ⟨.token u, rfl⟩

theorem Calm.part (h : Calm g t) : ∀ p ∈ t.parts, Calm g p := by
  obtain ⟨hf, hr⟩ := h
  cases hf with
  | token u => exact List.forall_mem_nil _
  | @node rule line ps content own parts =>
    rw [Tree.parts]
    cases content with
    | number | string | boolean | null => exact List.forall_mem_singleton.2 calm_token
    | list each =>
      simp only [List.cons_append, List.forall_mem_cons, List.forall_mem_append] at parts ⊢
      exact ⟨calm_token, fun p hp => calm_fits (parts.2.1 p hp) (each p hp), calm_token, List.forall_mem_nil _⟩
    | map each =>
      simp only [List.cons_append, List.forall_mem_cons, List.forall_mem_append] at parts ⊢
      exact ⟨calm_token, fun p hp => calm_isA (parts.2.1 p hp) (each p hp) rfl, calm_token, List.forall_mem_nil _⟩
    | path _ each =>
      simp only [List.forall_mem_cons] at parts ⊢
      exact ⟨calm_token, fun p hp => calm_isA (parts.2 p hp) (each p hp) rfl⟩
    | types _ each =>
      simp only [List.forall_mem_cons] at parts ⊢
      exact ⟨calm_token, fun p hp => calm_isA (parts.2 p hp) (each p hp) rfl⟩
    | arguments each => exact fun p hp => calm_isA (parts p hp) (each p hp) rfl
    | field =>
      simp only [List.forall_mem_cons]
      exact ⟨calm_token, calm_token, List.forall_mem_nil _⟩
    | mapItem key value =>
      simp only [List.forall_mem_cons] at parts ⊢
      exact ⟨calm_fits parts.1 key, calm_fits parts.2.1 value, List.forall_mem_nil _⟩
    | binary first _ second =>
      simp only [List.forall_mem_cons] at parts ⊢
      exact ⟨calm_fits parts.1 first, calm_token, calm_fits parts.2.2.1 second, List.forall_mem_nil _⟩
    | index _ value _ =>
      simp only [List.forall_mem_cons] at parts ⊢
      exact ⟨calm_token, calm_fits parts.2.1 value, calm_token, List.forall_mem_nil _⟩
    | unary value | argument _ value =>
      simp only [List.forall_mem_cons] at parts ⊢
      exact ⟨calm_token, calm_fits parts.2.1 value, List.forall_mem_nil _⟩
    | cast value types =>
      simp only [List.forall_mem_cons] at parts ⊢
      exact ⟨calm_fits parts.1 value, calm_token, calm_isA parts.2.2.1 types rfl, List.forall_mem_nil _⟩
    | functionCall _ arguments =>
      simp only [List.forall_mem_cons] at parts ⊢
      exact ⟨calm_token, calm_token, calm_isA parts.2.2.1 arguments rfl, calm_token, List.forall_mem_nil _⟩
    | link _ arguments =>
      simp only [List.forall_mem_cons] at parts ⊢
      exact ⟨calm_token, calm_isA parts.2.1 arguments rfl, List.forall_mem_nil _⟩
    | furtherLink _ _ arguments =>
      simp only [List.forall_mem_cons] at parts ⊢
      exact ⟨calm_token, calm_token, calm_isA parts.2.2.1 arguments rfl, List.forall_mem_nil _⟩
    | expressionStatement value =>
      exact List.forall_mem_singleton.2 (calm_fits (parts _ List.mem_cons_self) value)
    | _ => cases hr

theorem roots_calm : Roots (fun _ => False) (Calm g) where
  part _ h := h.part
  root t h ht := by
    rcases ht with ht | ht
    all_goals
      obtain ⟨line, ps, rfl⟩ := Tree.isA_iff.1 ht
      cases h.rule

theorem keeps_calm (h : Calm g t) : ValueKeeps unchanged.toReporting t := valueKeeps roots_calm t h

theorem silent_value (h : Calm g t) (e : Env) : Silent (value e t) :=
  Shows.silent (shows_of_formed h.formed).value ((keeps_calm h).value e)

theorem silent_supplied (h : ∀ p ∈ ps, Calm g p) (e : Env) (seen : List String) :
    Silent (suppliedBy e seen ps) :=
  Shows.silent (fun a => (RowShows.of (fun p hp => (h p hp).formed) fun p hp =>
    shows_of_formed (h p hp).formed).supplied a seen)
    ((RowKeeps.of fun p hp => keeps_calm (h p hp)).supplied e seen)

theorem silent_arguments (h : ∀ p ∈ ps, Calm g p) (e : Env) : Silent (argumentsOf e ps) :=
  Shows.silent (fun a => (RowShows.of (fun p hp => (h p hp).formed) fun p hp =>
    shows_of_formed (h p hp).formed).arguments a)
    ((RowKeeps.of fun p hp => keeps_calm (h p hp)).arguments e)

theorem silent_condition (h : Calm g t) (e : Env) : Silent (condition e t) := by
  refine (silent_value h e).bind fun out => ?_
  dsimp only
  split
  · exact (Reports.silent (r := none) (reports_report rfl)).bind fun _ => silent_pure
  · exact silent_pure

theorem silent_nodeValue {i : Nat} (h : ∀ t ∈ (ps.filter Tree.isNode)[i]?, Calm g t) (e : Env) :
    Silent (nodeValue e i ps) := by
  unfold nodeValue
  cases ht : (ps.filter Tree.isNode)[i]? with
  | none => exact silent_pure
  | some t => exact (silent_value (h t ht) e).bind fun _ => silent_pure

theorem silent_returned (h : ∀ t ∈ (ps.filter Tree.isNode)[0]?, Calm g t) (e : Env) :
    Silent (returned e ps) := by
  refine (silent_nodeValue h e).bind fun out => ?_
  dsimp only
  split
  · split
    · exact (Reports.silent (r := none) (reports_report rfl)).bind fun _ => silent_pure
    · exact silent_pure
  · exact silent_pure

/-! ## Checks that note services -/

/-- With these scopes and services the check adds to the reports, and comes to what `post` says if
none of them is an error. -/
def Notes (a : Scopes) (m : NameMap Unit) (x : Check α) (post : α → Scopes → NameMap Unit → Prop) : Prop :=
  ∀ s v s', s.scopes = a → s.services = m → x s = .ok (v, s') →
    s.Since Code.ofStory s' ∧ (s'.Clean → post v s'.scopes s'.services)

theorem notes_pure {v : α} {post : α → Scopes → NameMap Unit → Prop} (h : post v a m) :
    Notes a m (pure v) post := by
  rintro s _ _ rfl rfl hx
  obtain ⟨rfl, rfl⟩ := pure_ok_iff.1 hx
  exact ⟨.refl rfl, fun _ => h⟩

theorem Notes.bind {x : Check α} {f : α → Check β} {mid : α → Scopes → NameMap Unit → Prop}
    {post : β → Scopes → NameMap Unit → Prop} (h : Notes a m x mid)
    (hf : ∀ v b k, Notes b k (f v) fun w c l => mid v b k → post w c l) : Notes a m (x >>= f) post := by
  intro s w s' ha hm hx
  obtain ⟨v, u, hx, hfx⟩ := bind_ok_iff.1 hx
  obtain ⟨hsince, hmid⟩ := h s v u ha hm hx
  obtain ⟨hsince', hpost⟩ := hf v u.scopes u.services u w s' rfl rfl hfx
  exact ⟨hsince.trans hsince', fun hs => hpost hs (hmid (hsince'.clean hs))⟩

theorem Notes.mono {x : Check α} {post post' : α → Scopes → NameMap Unit → Prop} (h : Notes a m x post)
    (hp : ∀ v b k, post v b k → post' v b k) : Notes a m x post' :=
  fun s v s' ha hm hx => (h s v s' ha hm hx).imp_right fun hpost hs => hp v _ _ (hpost hs)

/-- What every run of the check gives is known too. -/
theorem Notes.gives {x : Check α} {post : α → Scopes → NameMap Unit → Prop} {post' : α → Prop}
    (h : Notes a m x post) (hg : Gives post' x) : Notes a m x fun v b k => post v b k ∧ post' v := by
  intro s v s' ha hm hx
  exact (h s v s' ha hm hx).imp_right fun hpost hs => ⟨hpost hs, hg s v s' hx⟩

theorem Silent.notes {x : Check α} {f : α → Check β} {post : β → Scopes → NameMap Unit → Prop}
    (h : Silent x) (hf : ∀ v, Notes a m (f v) post) : Notes a m (x >>= f) post := by
  rintro s w s' rfl rfl hx
  obtain ⟨v, u, hx, hfx⟩ := bind_ok_iff.1 hx
  obtain ⟨hscopes, hservices, hsince⟩ := h s v u hx
  exact (hf v u w s' hscopes hservices hfx).imp_left hsince.trans

/-- A check that only reports comes to where it started from. -/
theorem Silent.alone {x : Check α} (h : Silent x) : Notes a m x fun _ b k => b = a ∧ k = m := by
  rintro s v s' rfl rfl hx
  obtain ⟨hscopes, hservices, hsince⟩ := h s v s' hx
  exact ⟨hsince, fun _ => ⟨hscopes, hservices⟩⟩

theorem notes_lookup {f : Option Binding → Check β} {post : β → Scopes → NameMap Unit → Prop}
    (h : Notes a m (f (e.found a n)) post) : Notes a m (lookup e n >>= f) post := by
  rintro s w s' rfl hm hx
  exact h s w s' rfl hm hx

theorem notes_useService : Notes a m (useService n) fun _ b k => b = a ∧ k = m.insert n () := by
  rintro s _ _ rfl rfl hx
  obtain ⟨-, rfl⟩ := Prod.mk.inj (Except.ok.inj hx)
  exact ⟨.refl rfl, fun _ => ⟨rfl, rfl⟩⟩

/-- An error leaves nothing to be told. -/
theorem notes_error {code : Code} {args : List String} {place : Option Position} {f : Unit → Check β}
    {post : β → Scopes → NameMap Unit → Prop} (hc : code.ofStory = true)
    (h : code.definition.severity = .error) (hf : ∀ u, Silent (f u)) :
    Notes a m (report code args place >>= f) post := by
  rintro s w s' rfl rfl hx
  obtain ⟨v, u, hx, hfx⟩ := bind_ok_iff.1 hx
  obtain ⟨-, hsince, herror⟩ := shows_error hc h s v u rfl hx
  obtain ⟨-, -, hsince'⟩ := hf v u w s' hfx
  exact ⟨hsince.trans hsince', fun hs => (herror (hsince'.clean hs)).elim⟩

/-- The services noted are those from before and what is used. -/
def Noted (m k : NameMap Unit) (used : String → Prop) : Prop := ∀ n, n ∈ k.names ↔ n ∈ m.names ∨ used n

theorem noted_none {used : String → Prop} (h : ∀ n, ¬ used n) : Noted m m used :=
  fun n => (or_iff_left (h n)).symm

/-- A name is noted that is not known. -/
theorem noted_insert {known : String → Prop} (h : ¬ known n) :
    Noted m (m.insert n ()) fun n' => some n = some n' ∧ ¬ known n' := fun n' => by
  rw [NameMap.mem_names_insert, or_comm]
  refine or_congr_right ⟨?_, fun hn => (Option.some.inj hn.1).symm⟩
  rintro rfl
  exact ⟨rfl, h⟩

theorem Noted.trans {l : NameMap Unit} {used used' used'' : String → Prop} (h : Noted m k used)
    (h' : Noted k l used') (hu : ∀ n, used'' n ↔ used n ∨ used' n) : Noted m l used'' := fun n => by
  rw [h' n, h n, hu n, or_assoc]

/-! ## Calls -/

theorem silent_commanded {service : String} {place : Position} {command : Option Token}
    {supplied : List Supplied} : Silent (commanded e service place command supplied) :=
  Reports.silent reports_commanded

/-- A call notes its service if that is not known. -/
theorem notes_serviceCall (hf : Formed Token.Sound g .plain (.node .serviceCall line ps)) :
    Notes a m (value e (.node .serviceCall line ps)) fun _ b k =>
      b = a ∧ Noted m k fun n => rootOf? ps = some n ∧ ¬ e.Knows a n := by
  obtain _ | ⟨content, -, parts⟩ := hf
  cases content with
  | @serviceCall _ path command given extra isPath named arguments extras =>
    obtain ⟨l, row, rfl⟩ := Tree.isA_iff.1 arguments
    simp only [List.forall_mem_cons] at parts
    obtain ⟨root, rooted⟩ := Option.isSome_iff_exists.1
      (parts.1.hasToken (Tree.isA_ne isPath (by simp)) (Tree.isA_ne isPath (by simp)))
    have hroot : rootOf? (path :: .token command :: .node .arguments l row :: extra) = some root.literal := by
      rw [rootOf?, List.find?_cons_of_pos isPath, Option.bind_some, rooted]
      rfl
    have hpath : Calm g path := calm_isA parts.1 isPath rfl
    have hgiven : Calm g (.node .arguments l row) := ⟨parts.2.2.1, rfl⟩
    have hrow : ∀ p ∈ row, Calm g p := hgiven.part
    have hargs : Silent (argumentsOf e (path :: .token command :: .node .arguments l row :: extra)) := by
      rw [argumentsOf_called isPath]
      exact (silent_supplied hrow e []).bind fun _ => silent_pure
    rw [value_call isPath rooted]
    refine notes_lookup ?_
    rw [hroot]
    cases hfound : e.found a root.literal with
    | none =>
      have hknows : ¬ e.Knows a root.literal := by simp [Env.Knows, hfound]
      rw [Option.map_none]
      dsimp only
      split
      · exact notes_error rfl rfl fun _ => hargs.bind fun _ => silent_pure
      · refine hargs.notes fun given => ?_
        rw [commandCall_eq, bind_assoc]
        refine notes_useService.bind fun _ b k => silent_commanded.notes fun ty => notes_pure ?_
        rintro ⟨rfl, rfl⟩
        exact ⟨rfl, noted_insert hknows⟩
    | some binding =>
      have hknows : e.Knows a root.literal := by simp [Env.Knows, hfound]
      have hnone : ∀ n, ¬ (some root.literal = some n ∧ ¬ e.Knows a n) := by
        rintro n ⟨hn, hno⟩
        exact hno (Option.some.inj hn ▸ hknows)
      have hmutation : Silent (callAsMutation e (path :: .token command :: .node .arguments l row :: extra)) := by
        rw [callAsMutation_called isPath named (extras_alone extras)]
        refine (silent_value hpath e).bind fun v => (silent_supplied hrow e []).bind fun given => ?_
        exact (Reports.silent (r := none) reports_mutationCall).bind fun _ => silent_pure
      have hsilent : ∀ {x : Check (Tree × Ty)}, Silent x → Notes a m x fun _ b k =>
          b = a ∧ Noted m k fun n => some root.literal = some n ∧ ¬ e.Knows a n := fun hx =>
        hx.alone.mono fun _ _ _ h => ⟨h.1, h.2 ▸ noted_none hnone⟩
      rw [Option.map_some]
      dsimp only
      split
      · exact hsilent (hargs.bind fun _ => silent_pure)
      · exact hsilent (hmutation.bind fun _ => silent_pure)

/-- A mutation notes nothing. -/
theorem silent_mutation (hf : Formed Token.Sound g .plain (.node .mutation line ps)) :
    Silent (value e (.node .mutation line ps)) := by
  obtain _ | ⟨content, -, parts⟩ := hf
  cases content with
  | @mutation subject link extra fits linked extras =>
    obtain ⟨l, inner, rfl⟩ := Tree.isA_iff.1 linked
    simp only [List.forall_mem_cons] at parts
    have hsubject : Calm g subject := calm_fits parts.1 fits
    have hlink : Calm g (.node .mutationFragment l inner) := ⟨parts.2.1, rfl⟩
    rw [value_mutation (isNode_of_fits fits) fun p hp => (extras_alone extras p hp).2]
    refine (silent_value hsubject e).bind fun v => (silent_arguments hlink.part e).bind fun given => ?_
    exact (Reports.silent (r := none) reports_mutationCall).bind fun _ => silent_pure

/-- A call in a list of statements notes its service if that is not known. -/
theorem notes_called (hc : rule = .serviceCall ∨ rule = .mutation)
    (hf : Formed Token.Sound g .plain (.node rule line ps)) :
    Notes a m (value e (.node rule line ps)) fun _ b k =>
      b = a ∧ Noted m k fun n => calledBy (.node rule line ps) = some n ∧ ¬ e.Knows a n := by
  rcases hc with rfl | rfl
  · exact notes_serviceCall hf
  · refine (silent_mutation hf).alone.mono fun _ _ _ h => ⟨h.1, h.2 ▸ noted_none ?_⟩
    rintro n ⟨hn, -⟩
    cases hn

/-- So does a call whose value is assigned. -/
theorem notes_assigned (hf : Formed Token.Sound g .plain t)
    (hv : t.fits .plain = true ∨ t.isCall = true) :
    Notes a m (value e t) fun _ b k =>
      b = a ∧ Noted m k fun n => calledIn? t = some n ∧ ¬ e.Knows a n := by
  have silent (hs : Silent (value e t)) (hn : calledIn? t = none) : Notes a m (value e t) fun _ b k =>
      b = a ∧ Noted m k fun n => calledIn? t = some n ∧ ¬ e.Knows a n := by
    refine hs.alone.mono fun _ _ _ h => ⟨h.1, h.2 ▸ noted_none ?_⟩
    rintro n ⟨hcalled, -⟩
    cases hn.symm.trans hcalled
  rcases hv with hv | hv
  · refine silent (silent_value (calm_fits hf hv) e) ?_
    obtain ⟨rule, line, ps, rfl, hr⟩ := Tree.fits_iff.1 hv
    rcases hr with hr | ⟨hs, -⟩
    · cases rule <;> first | rfl | cases hr
    · cases hs
  · cases t with
    | token u => cases hv
    | node rule line ps =>
      cases rule with
      | serviceCall => exact notes_serviceCall hf
      | mutation => exact silent (silent_mutation hf) rfl
      | functionCall => exact silent (silent_value ⟨hf, rfl⟩ e) rfl
      | _ => cases hv

end Check

end StoryLang
