/-
Two checks side by side.

Checks of one tree with different registries differ in the types they find,
and with them in what they report. `Paired` relates what the two give, whenever
both give something. What finds the types of values is `Level`: it leaves both
sides with the scopes they had and with the same services. A statement declares
names, the same ones on both sides, so that their scopes stay `Alike`.

Which tree is given back for a value depends on the types at one place only,
where a call is told from a mutation. So two checks that agree on the calls in a
value give back the same tree. The steps follow the checks of values: what
following a row of parts gives is shown from what checking its trees does, and
that by induction on the tree.
-/
import Mathlib.Data.List.Forall2
import StoryLang.Proofs.Check.Contract
import StoryLang.Proofs.Check.Place
import StoryLang.Proofs.Tree.Names

namespace StoryLang

/-! ## Scopes with the same names -/

/-- Both scopes have the same names. -/
def Scope.Alike (a b : Scope) : Prop := ∀ name, (a.get? name).isSome = (b.get? name).isSome

theorem Scope.Alike.refl (a : Scope) : a.Alike a := fun _ => rfl

/-- A name is new to both scopes or to none, and with one more name they are still alike. -/
theorem Scope.Alike.declare {a b : Scope} (h : a.Alike b) (name : String) (ty ty' : Ty)
    (line : Option Coord) :
    (∃ a' b', a.declare ⟨name, ty, line⟩ = .ok a' ∧ b.declare ⟨name, ty', line⟩ = .ok b' ∧
      a'.Alike b') ∨
    ∃ x y, a.declare ⟨name, ty, line⟩ = .error x ∧ b.declare ⟨name, ty', line⟩ = .error y := by
  have hname := h name
  cases ha : a.declare ⟨name, ty, line⟩ with
  | error x =>
    have hx : a.get? name = some x := declare_eq_error_iff.1 ha
    rw [hx, Option.isSome_some, eq_comm, Option.isSome_iff_exists] at hname
    obtain ⟨y, hy⟩ := hname
    exact .inr ⟨x, y, rfl, declare_eq_error_iff.2 hy⟩
  | ok a' =>
    cases hb : b.declare ⟨name, ty', line⟩ with
    | error y =>
      have hy : b.get? name = some y := declare_eq_error_iff.1 hb
      rw [hy, Option.isSome_some, Option.isSome_iff_exists] at hname
      obtain ⟨x, hx⟩ := hname
      have hx : a.declare ⟨name, ty, line⟩ = .error x := declare_eq_error_iff.2 hx
      rw [hx] at ha
      cases ha
    | ok b' =>
      refine .inl ⟨a', b', rfl, rfl, fun other => ?_⟩
      rw [get?_declare ha, get?_declare hb]
      split
      · rfl
      · exact h other

namespace Scopes

variable {a b c : Scopes}

/-- The scopes have the same names, one by one. -/
structure Alike (a b : Scopes) : Prop where
  inner : List.Forall₂ Scope.Alike a.inner b.inner
  root : a.root.Alike b.root

namespace Alike

theorem ofRoot (root : Scope) : (Scopes.ofRoot root).Alike (.ofRoot root) := ⟨.nil, .refl root⟩

theorem push (h : a.Alike b) : a.push.Alike b.push := ⟨.cons (.refl .empty) h.inner, h.root⟩

theorem depth (h : a.Alike b) : a.depth = b.depth := by
  simp [Scopes.depth, h.inner.length_eq]

theorem opened (h : a.Alike b) (ha : a.inner ≠ []) : b.inner ≠ [] := by
  intro hb
  have hl := h.inner.length_eq
  rw [hb] at hl
  exact ha (List.length_eq_zero_iff.1 hl)

theorem findSome? {as bs : List Scope} (h : List.Forall₂ Scope.Alike as bs) (name : String) :
    (as.findSome? (·.get? name)).isSome = (bs.findSome? (·.get? name)).isSome := by
  induction h with
  | nil => rfl
  | @cons a b as bs hab _ ih =>
    have hab := hab name
    simp only [List.findSome?_cons]
    cases ha : a.get? name <;> cases hb : b.get? name <;> simp_all

theorem get? (h : a.Alike b) (name : String) : (a.get? name).isSome = (b.get? name).isSome := by
  simp only [Scopes.get?, Option.isSome_or, findSome? h.inner name, h.root name]

theorem getFrom? (h : a.Alike b) (floor : Nat) (name : String) :
    (a.getFrom? floor name).isSome = (b.getFrom? floor name).isSome := by
  simp only [Scopes.getFrom?, Option.isSome_or, h.depth, h.root name,
    findSome? (List.forall₂_take _ h.inner) name]

end Alike

/-- The scopes are others at most at the top, and that is not the root. -/
structure Over (a b : Scopes) : Prop where
  opened : a.inner ≠ []
  below : a.dropTop = b.dropTop

namespace Over

theorem refl (h : a.inner ≠ []) : a.Over a := ⟨h, rfl⟩

theorem trans (h : a.Over b) (h' : b.Over c) : a.Over c := ⟨h.opened, h.below.trans h'.below⟩

theorem ofPush (h : a.Over b.push) : a.dropTop = b := h.below.trans (dropTop_push b)

end Over

/-- A name that is declared is new to the top scopes of both or to none. -/
theorem Alike.declare (h : a.Alike b) (ha : a.inner ≠ []) (name : String) (ty ty' : Ty)
    (line : Option Coord) :
    (∃ a' b', a.declare ⟨name, ty, line⟩ = .ok a' ∧ b.declare ⟨name, ty', line⟩ = .ok b' ∧
      a'.Alike b' ∧ a'.Over a ∧ b'.Over b) ∨
    ∃ x y, a.declare ⟨name, ty, line⟩ = .error x ∧ b.declare ⟨name, ty', line⟩ = .error y := by
  obtain ⟨as, root⟩ := a
  obtain ⟨bs, root'⟩ := b
  obtain ⟨hinner, hroot⟩ := h
  cases hinner with
  | nil => exact absurd rfl ha
  | @cons top top' rest rest' htop hrest =>
    rcases htop.declare name ty ty' line with ⟨a', b', ha', hb', hn⟩ | ⟨x, y, hx, hy⟩
    · refine .inl ⟨⟨a' :: rest, root⟩, ⟨b' :: rest', root'⟩, ?_, ?_, ⟨.cons hn hrest, hroot⟩,
        ⟨by simp, rfl⟩, ⟨by simp, rfl⟩⟩
      · simp [Scopes.declare, ha', Except.map]
      · simp [Scopes.declare, hb', Except.map]
    · exact .inr ⟨x, y, by simp [Scopes.declare, hx, Except.map],
        by simp [Scopes.declare, hy, Except.map]⟩

end Scopes

namespace Check

variable {α β : Type} {p p' : Place} {r r' : Option Registry} {s s' t t' : State}

/-- Two places of one kind, where the same names are known. -/
structure Place.Alike (p p' : Place) : Prop where
  features : p.env.features = p'.env.features
  body : p.env.body = p'.env.body
  scopes : p.scopes.Alike p'.scopes

theorem Place.Alike.found_isSome (h : p.Alike p') (name : String) :
    (p.env.found p.scopes name).isSome = (p'.env.found p'.scopes name).isSome := by
  unfold Env.found
  rw [h.features, h.body]
  split
  · split
    · exact h.scopes.get? name
    · exact h.scopes.getFrom? _ name
  · exact h.scopes.get? name

/-- A name is known at both places or at none. -/
theorem Place.Alike.found (h : p.Alike p') (name : String) :
    (p.env.found p.scopes name = none ∧ p'.env.found p'.scopes name = none) ∨
      ∃ b b', p.env.found p.scopes name = some b ∧ p'.env.found p'.scopes name = some b' := by
  have hs := h.found_isSome name
  cases hb : p.env.found p.scopes name <;> cases hb' : p'.env.found p'.scopes name <;> simp_all

/-! ## Paired checks -/

/-- What one check gives from `s` and another from `s'` is related, if both give something. -/
def Paired (x x' : Check α) (s s' : State) (post : α → State → α → State → Prop) : Prop :=
  ∀ a t a' t', x s = .ok (a, t) → x' s' = .ok (a', t') → post a t a' t'

theorem paired_pure {a a' : α} {post : α → State → α → State → Prop} (h : post a s a' s') :
    Paired (pure a) (pure a') s s' post := by
  intro b t b' t' hx hx'
  obtain ⟨rfl, rfl⟩ := Prod.mk.inj (Except.ok.inj hx)
  obtain ⟨rfl, rfl⟩ := Prod.mk.inj (Except.ok.inj hx')
  exact h

theorem Paired.bind {x x' : Check α} {f f' : α → Check β} {mid : α → State → α → State → Prop}
    {post : β → State → β → State → Prop} (h : Paired x x' s s' mid)
    (hf : ∀ a t a' t', x s = .ok (a, t) → x' s' = .ok (a', t') → mid a t a' t' →
      Paired (f a) (f' a') t t' post) : Paired (x >>= f) (x' >>= f') s s' post := by
  intro b u b' u' hx hx'
  obtain ⟨a, t, hx, hfx⟩ := bind_ok_iff.1 hx
  obtain ⟨a', t', hx', hfx'⟩ := bind_ok_iff.1 hx'
  exact hf a t a' t' hx hx' (h a t a' t' hx hx') b u b' u' hfx hfx'

theorem Paired.mono {x x' : Check α} {post post' : α → State → α → State → Prop}
    (h : Paired x x' s s' post) (hp : ∀ a t a' t', post a t a' t' → post' a t a' t') :
    Paired x x' s s' post' :=
  fun a t a' t' hx hx' => hp a t a' t' (h a t a' t' hx hx')

/-! ## Checks that leave the scopes alone -/

/-- The states are those of two checks at these places: the same services are used. -/
structure At (p p' : Place) (s s' : State) : Prop where
  left : s.scopes = p.scopes
  right : s'.scopes = p'.scopes
  services : s.services = s'.services

/-- Two checks that stay at their places, and what they give is related. -/
def Level (p p' : Place) (x x' : Check α) (same : α → α → Prop) : Prop :=
  ∀ s s', At p p' s s' → Paired x x' s s' fun a t a' t' => At p p' t t' ∧ same a a'

/-- Two checks that give the same of a tree, and what may differ of its types. -/
abbrev Tells (p p' : Place) (x x' : Check (α × β)) : Prop :=
  Level p p' x x' fun out out' => out.1 = out'.1

theorem level_pure {a a' : α} {same : α → α → Prop} (h : same a a') :
    Level p p' (pure a) (pure a') same :=
  fun _ _ hs => paired_pure ⟨hs, h⟩

theorem Level.bind {x x' : Check α} {f f' : α → Check β} {mid : α → α → Prop}
    {same : β → β → Prop} (h : Level p p' x x' mid)
    (hf : ∀ a a', mid a a' → Level p p' (f a) (f' a') same) :
    Level p p' (x >>= f) (x' >>= f') same := by
  intro s s' hs
  refine (h s s' hs).bind fun a t a' t' _ _ hm => ?_
  exact hf a a' hm.2 t t' hm.1

theorem Tells.bind {γ : Type} {x x' : Check (α × γ)} {f f' : α × γ → Check β}
    {same : β → β → Prop} (h : Tells p p' x x')
    (hf : ∀ a c c', Level p p' (f (a, c)) (f' (a, c')) same) :
    Level p p' (x >>= f) (x' >>= f') same := by
  refine Level.bind h fun out out' ho => ?_
  obtain ⟨a, c⟩ := out
  obtain ⟨a', c'⟩ := out'
  obtain rfl : a = a' := ho
  exact hf a c c'

theorem Tells.first {x x' : Check (α × β)} (h : Tells p p' x x') :
    Level p p' (x >>= fun out => pure out.1) (x' >>= fun out => pure out.1) (· = ·) :=
  Level.bind h fun _ _ ho => level_pure ho

theorem tells_pure {a : α} {b b' : β} : Tells p p' (pure (a, b)) (pure (a, b')) := level_pure rfl

theorem Quiet.level {x x' : Check α} {post post' : α → Prop} {same : α → α → Prop}
    {codes : Code → Bool} (h : Quiet codes r x post) (h' : Quiet codes r' x' post') (hs : ∀ a a', post a → post' a' → same a a') :
    Level p p' x x' same := by
  intro s s' hp a t a' t' hx hx'
  have h := h s
  have h' := h' s'
  rw [hx] at h
  rw [hx'] at h'
  exact ⟨⟨h.1.1.trans hp.left, h'.1.1.trans hp.right, h.1.2.trans (hp.services.trans h'.1.2.symm)⟩,
    hs a a' h.2.2 h'.2.2⟩

/-- Checks that only report are level, whatever they find. -/
theorem Reports.level {x x' : Check α} (h : Reports p.env.registry x)
    (h' : Reports p'.env.registry x') : Level p p' x x' fun _ _ => True :=
  Quiet.level h h' fun _ _ _ _ => trivial

/-- After checks that only report one knows nothing of what they give. -/
theorem Reports.pair {x x' : Check α} {f f' : α → Check β} {same : β → β → Prop}
    (h : Reports p.env.registry x) (h' : Reports p'.env.registry x')
    (hf : ∀ a a', Level p p' (f a) (f' a') same) : Level p p' (x >>= f) (x' >>= f') same :=
  Level.bind (h.level h') fun a a' _ => hf a a'

theorem level_report {code : Code} {args args' : List String} {place place' : Option Position}
    {f f' : Unit → Check α} {same : α → α → Prop} (h : code.ofUse = true)
    (hf : ∀ u u', Level p p' (f u) (f' u') same) :
    Level p p' (report code args place >>= f) (report code args' place' >>= f') same :=
  Reports.pair (reports_report h) (reports_report h) hf

theorem level_lookup (name : String) :
    Level p p' (lookup p.env name) (lookup p'.env name) fun a a' =>
      a = p.env.found p.scopes name ∧ a' = p'.env.found p'.scopes name := by
  intro s s' hs a t a' t' hx hx'
  rw [lookup_eq] at hx hx'
  obtain ⟨rfl, rfl⟩ := Prod.mk.inj (Except.ok.inj hx)
  obtain ⟨rfl, rfl⟩ := Prod.mk.inj (Except.ok.inj hx')
  exact ⟨hs, by rw [hs.left], by rw [hs.right]⟩

theorem level_useService (name : String) :
    Level p p' (useService name) (useService name) fun _ _ => True := by
  intro s s' hs a t a' t' hx hx'
  obtain ⟨-, rfl⟩ := Prod.mk.inj (Except.ok.inj hx)
  obtain ⟨-, rfl⟩ := Prod.mk.inj (Except.ok.inj hx')
  exact ⟨⟨hs.left, hs.right, by rw [hs.services]⟩, trivial⟩

/-- What is looked up is found at both places or at none. -/
theorem Place.Alike.lookup (h : p.Alike p') {name : String} {f f' : Option Binding → Check α}
    {same : α → α → Prop} (none : Level p p' (f .none) (f' .none) same)
    (some : ∀ b b', p.env.found p.scopes name = .some b → p'.env.found p'.scopes name = .some b' →
      Level p p' (f (.some b)) (f' (.some b')) same) :
    Level p p' (lookup p.env name >>= f) (lookup p'.env name >>= f') same := by
  refine (level_lookup name).bind fun a a' ha => ?_
  obtain ⟨rfl, rfl⟩ := ha
  rcases h.found name with ⟨hb, hb'⟩ | ⟨b, b', hb, hb'⟩
  · rw [hb, hb']
    exact none
  · rw [hb, hb']
    exact some b b' hb hb'

theorem level_commandCall {service : String} {place : Position} {command : Option Token}
    {supplied supplied' : List Supplied} :
    Level p p' (commandCall p.env service place command supplied)
      (commandCall p'.env service place command supplied') fun _ _ => True := by
  rw [commandCall_eq, commandCall_eq]
  exact (level_useService service).bind fun _ _ _ => reports_commanded.level reports_commanded

theorem Place.Alike.listening (h : p.Alike p') {root : Token} {event : Option Token}
    {supplied supplied' : List Supplied} :
    Level p p' (listening p.env root event supplied) (listening p'.env root event supplied')
      fun _ _ => True := by
  rw [listening_eq, listening_eq]
  refine h.lookup ?_ fun b b' _ _ => reports_heard.level reports_heard
  exact (level_useService _).bind fun _ _ _ => reports_unheard.level reports_unheard

end Check

end StoryLang

/-! ## Values -/

namespace StoryLang

namespace Check

variable {p p' : Place} {t : Tree} {rule : Rule} {line : Option Coord} {ps : List Tree}

/-- Two checks of a row of parts give back the same row, whichever way it is followed. -/
structure RowsTell (p p' : Place) (ps : List Tree) : Prop where
  firsts : ∀ n, Tells p p' (firsts p.env n ps) (firsts p'.env n ps)
  entries : Tells p p' (entries p.env ps) (entries p'.env ps)
  fragments : ∀ ty ty', Tells p p' (fragments p.env ty ps) (fragments p'.env ty' ps)
  supplied : ∀ seen, Tells p p' (suppliedBy p.env seen ps) (suppliedBy p'.env seen ps)

/-- Two checks of a value give back the same value. -/
structure ValueTells (p p' : Place) (t : Tree) : Prop where
  value : Tells p p' (value p.env t) (value p'.env t)
  rows : RowsTell p p' t.parts
  arguments : Tells p p' (argumentsOf p.env t.parts) (argumentsOf p'.env t.parts)

theorem RowsTell.nil : RowsTell p p' [] where
  firsts n := by cases n <;> exact tells_pure
  entries := tells_pure
  fragments _ _ := tells_pure
  supplied _ := tells_pure

theorem RowsTell.token {u : Token} (h : RowsTell p p' ps) : RowsTell p p' (.token u :: ps) where
  firsts n := by
    unfold Check.firsts
    exact (h.firsts n).bind fun _ _ _ => tells_pure
  entries := by
    unfold Check.entries
    exact h.entries.bind fun _ _ _ => tells_pure
  fragments ty ty' := by
    unfold Check.fragments
    exact (h.fragments ty ty').bind fun _ _ _ => tells_pure
  supplied seen := by
    unfold suppliedBy
    exact (h.supplied seen).bind fun _ _ _ => tells_pure

theorem RowsTell.node {inner : List Tree} (ht : ValueTells p p' (.node rule line inner))
    (h : RowsTell p p' ps) : RowsTell p p' (.node rule line inner :: ps) where
  firsts n := by
    cases n with
    | zero =>
      unfold Check.firsts
      exact tells_pure
    | succ n =>
      unfold Check.firsts
      exact ht.value.bind fun _ _ _ => (h.firsts n).bind fun _ _ _ => tells_pure
  entries := by
    unfold Check.entries
    exact (ht.rows.firsts 2).bind fun _ _ _ => h.entries.bind fun _ _ _ => tells_pure
  fragments ty ty' := by
    unfold Check.fragments
    split
    · have rest : ∀ ty ty', Tells p p'
          (Check.fragments p.env ty ps >>= fun out => pure (.node rule line inner :: out.1, out.2))
          (Check.fragments p'.env ty' ps >>= fun out => pure (.node rule line inner :: out.1, out.2)) :=
        fun ty ty' => (h.fragments ty ty').bind fun _ _ _ => tells_pure
      split
      · exact rest ty ty'
      · exact reports_fieldType.pair reports_fieldType rest
    · refine (ht.rows.firsts 1).bind fun _ _ _ => ?_
      refine reports_indexType.pair reports_indexType fun _ _ => ?_
      exact (h.fragments _ _).bind fun _ _ _ => tells_pure
  supplied seen := by
    unfold suppliedBy
    split
    · exact (h.supplied seen).bind fun _ _ _ => tells_pure
    · rename_i name _
      have rest : Tells p p' (Check.firsts p.env 1 inner >>= fun out =>
          suppliedBy p.env (name.literal :: seen) ps >>= fun others =>
          pure (Tree.node rule line out.1 :: others.1,
            (⟨name.literal, out.2.getD 0 .any, name.position⟩ : Supplied) :: others.2))
          (Check.firsts p'.env 1 inner >>= fun out =>
          suppliedBy p'.env (name.literal :: seen) ps >>= fun others =>
          pure (Tree.node rule line out.1 :: others.1,
            (⟨name.literal, out.2.getD 0 .any, name.position⟩ : Supplied) :: others.2)) :=
        (ht.rows.firsts 1).bind fun _ _ _ => (h.supplied _).bind fun _ _ _ => tells_pure
      split
      · exact level_report rfl fun _ _ => rest
      · exact rest

theorem RowsTell.of (h : ∀ q ∈ ps, ValueTells p p' q) : RowsTell p p' ps :=
  Tree.byRow h .nil .token .node

/-! ## Calls -/

/-- What of a row is no block or branch is given back. -/
def PartsTell (p p' : Place) (ps : List Tree) : Prop :=
  ∀ q ∈ ps, q.isClause = false → ValueTells p p' q

/-- Finding the type of a block or branch leaves it as it is. -/
theorem value_clause {e : Env} (h : t.isClause = true) : value e t = pure (t, .any) := by
  cases t with
  | token u => rfl
  | node r l ps =>
    cases r <;> first | rfl | simp [Tree.isClause, Tree.isBranch, Tree.isA, Tree.rule?, Rule.isBranch] at h

namespace PartsTell

theorem tail {q : Tree} (h : PartsTell p p' (q :: ps)) : PartsTell p p' ps :=
  fun q hq => h q (by simp [hq])

/-- Each part is given back, also if it is a block or branch. -/
theorem value (h : PartsTell p p' ps) {q : Tree} (hq : q ∈ ps) :
    Tells p p' (Check.value p.env q) (Check.value p'.env q) := by
  cases hc : q.isClause with
  | true =>
    rw [value_clause hc, value_clause hc]
    exact tells_pure
  | false => exact (h q hq hc).value

theorem firsts (h : PartsTell p p' ps) (n : Nat) :
    Tells p p' (firsts p.env n ps) (firsts p'.env n ps) := by
  induction ps generalizing n with
  | nil => cases n <;> exact tells_pure
  | cons q ps ih =>
    cases q with
    | token u =>
      unfold Check.firsts
      exact (ih h.tail n).bind fun _ _ _ => tells_pure
    | node r l inner =>
      cases n with
      | zero =>
        unfold Check.firsts
        exact tells_pure
      | succ n =>
        unfold Check.firsts
        refine (h.value List.mem_cons_self).bind fun _ _ _ => ?_
        exact (ih h.tail n).bind fun _ _ _ => tells_pure

theorem arguments (h : PartsTell p p' ps) :
    Tells p p' (argumentsOf p.env ps) (argumentsOf p'.env ps) := by
  induction ps with
  | nil => exact tells_pure
  | cons q ps ih =>
    have hq := h q (by simp)
    cases q with
    | token u => exact ih h.tail
    | node r l inner =>
      by_cases hr : r = .arguments
      · subst hr
        unfold argumentsOf
        exact ((hq rfl).rows.supplied []).bind fun _ _ _ => tells_pure
      · have hc : ∀ e, argumentsOf e (.node r l inner :: ps) = argumentsOf e ps := by
          intro e
          cases r <;> first | exact absurd rfl hr | rfl
        rw [hc, hc]
        exact ih h.tail

theorem links (h : PartsTell p p' ps) (ty ty' : Ty) :
    Tells p p' (links p.env ty ps) (links p'.env ty' ps) := by
  induction ps generalizing ty ty' with
  | nil => exact tells_pure
  | cons q ps ih =>
    have hq := h q (by simp)
    have skip : Tells p p' (Check.links p.env ty ps >>= fun out => pure (q :: out.1, out.2))
        (Check.links p'.env ty' ps >>= fun out => pure (q :: out.1, out.2)) :=
      (ih h.tail ty ty').bind fun _ _ _ => tells_pure
    cases q with
    | token u => exact skip
    | node r l inner =>
      by_cases hr : r = .mutationFragment
      · subst hr
        unfold Check.links
        refine (hq rfl).arguments.bind fun _ _ _ => ?_
        refine reports_mutationCall.pair reports_mutationCall fun _ _ => ?_
        exact (ih h.tail _ _).bind fun _ _ _ => tells_pure
      · have hc : ∀ e ty, Check.links e ty (.node r l inner :: ps) =
            Check.links e ty ps >>= fun out => pure (.node r l inner :: out.1, out.2) := by
          intro e ty
          cases r <;> first | exact absurd rfl hr | rfl
        rw [hc, hc]
        exact skip

theorem mutation (h : PartsTell p p' ps) :
    Tells p p' (mutation p.env ps) (mutation p'.env ps) := by
  induction ps with
  | nil => exact tells_pure
  | cons q ps ih =>
    cases q with
    | token u =>
      unfold Check.mutation
      exact (ih h.tail).bind fun _ _ _ => tells_pure
    | node r l inner =>
      unfold Check.mutation
      exact (h.value List.mem_cons_self).bind fun _ _ _ => (h.tail.links _ _).bind fun _ _ _ => tells_pure

theorem callAsMutation (h : PartsTell p p' ps) :
    Tells p p' (callAsMutation p.env ps) (callAsMutation p'.env ps) := by
  cases ps with
  | nil => exact tells_pure
  | cons q ps =>
    cases q with
    | token u =>
      unfold Check.callAsMutation
      exact (h.tail.links _ _).bind fun _ _ _ => tells_pure
    | node r l inner =>
      unfold Check.callAsMutation
      refine (h.value List.mem_cons_self).bind fun _ _ _ => h.tail.arguments.bind fun _ _ _ => ?_
      refine reports_mutationCall.pair reports_mutationCall fun _ _ => ?_
      exact (h.tail.links _ _).bind fun _ _ _ => tells_pure

theorem ofMutation (h : PartsTell p p' ps) : Tells p p' (Check.value p.env (.node .mutation line ps))
    (Check.value p'.env (.node .mutation line ps)) := by
  unfold Check.value
  exact h.mutation.bind fun _ _ _ => tells_pure

theorem ofFunctionCall (h : PartsTell p p' ps) :
    Tells p p' (Check.value p.env (.node .functionCall line ps))
      (Check.value p'.env (.node .functionCall line ps)) := by
  unfold Check.value
  refine h.arguments.bind fun _ _ _ => ?_
  exact reports_functionCall.pair reports_functionCall fun _ _ => tells_pure

theorem ofExpression (h : PartsTell p p' ps) :
    Tells p p' (Check.value p.env (.node .expressionStatement line ps))
      (Check.value p'.env (.node .expressionStatement line ps)) := by
  unfold Check.value
  exact (h.firsts 1).bind fun _ _ _ => tells_pure

/-- A call stays a call or becomes a mutation with both registries, as long as its
name is taken in the same way. -/
theorem ofCall (ha : p.Alike p') (h : PartsTell p p' ps)
    (hc : ∀ name ∈ (Tree.node .serviceCall line ps).calledName?,
      p.holdsOutput name.literal = p'.holdsOutput name.literal) :
    Tells p p' (Check.value p.env (.node .serviceCall line ps))
      (Check.value p'.env (.node .serviceCall line ps)) := by
  have kept : Tells p p'
      (argumentsOf p.env ps >>= fun out =>
        pure (Tree.node .serviceCall line (Tree.putFirst .arguments out.1 ps), Ty.any))
      (argumentsOf p'.env ps >>= fun out =>
        pure (Tree.node .serviceCall line (Tree.putFirst .arguments out.1 ps), Ty.any)) :=
    h.arguments.bind fun _ _ _ => tells_pure
  have turned : Tells p p'
      (Check.callAsMutation p.env ps >>= fun out => pure (Tree.node .mutation line out.1, out.2))
      (Check.callAsMutation p'.env ps >>= fun out => pure (Tree.node .mutation line out.1, out.2)) :=
    h.callAsMutation.bind fun _ _ _ => tells_pure
  unfold Check.value
  split
  · exact tells_pure
  · rename_i path hpath
    split
    · exact tells_pure
    · rename_i root hroot
      dsimp only
      refine ha.lookup ?_ fun b b' hb hb' => ?_
      · dsimp only [Option.map_none]
        split
        · exact level_report rfl fun _ _ => kept
        · refine h.arguments.bind fun _ _ _ => ?_
          exact level_commandCall.bind fun _ _ _ => tells_pure
      · dsimp only [Option.map_some]
        -- Without a dot both types are outputs or none is; with a dot it does not matter.
        have hsame : path.parts.any (·.isA .pathFragment) = false →
            b.ty.isOutput = b'.ty.isOutput := by
          intro hdot
          have hname : (Tree.node .serviceCall line ps).calledName? = some root := by
            simp [Tree.calledName?, hpath, hdot, hroot]
          simpa [Place.holdsOutput, hb, hb'] using hc root hname
        split
        · rename_i s c hty hdot
          obtain ⟨s', c', hty'⟩ := Ty.isOutput_iff.1 ((hsame hdot).symm.trans (by simp [hty, Ty.isOutput]))
          rw [hty', hdot]
          exact kept
        · rename_i hno
          split
          · rename_i s c hty hdot
            obtain ⟨s', c', hty'⟩ := Ty.isOutput_iff.1 ((hsame hdot).trans (by simp [hty, Ty.isOutput]))
            exact (hno s' c' hty' hdot).elim
          · exact turned

end PartsTell

/-- Two checks that agree on the calls in a value give back the same value. -/
theorem valueTells (ha : p.Alike p') (t : Tree) (hc : Agree p p' t.walk) : ValueTells p p' t := by
  revert hc
  induction t using Tree.byParts with
  | token u =>
    exact fun _ => ⟨tells_pure, .nil, tells_pure⟩
  | node rule line ps ih =>
    intro hc
    obtain ⟨own, inner⟩ := Tree.forall_mem_walk.1 hc
    have ih : ∀ q ∈ ps, ValueTells p p' q := fun q hq => ih q hq (inner q hq)
    have rows : RowsTell p p' ps := .of ih
    have parts : PartsTell p p' ps := fun q hq _ => ih q hq
    refine ⟨?_, rows, parts.arguments⟩
    cases rule with
    | list =>
      unfold Check.value
      exact (rows.firsts _).bind fun _ _ _ => tells_pure
    | map =>
      unfold Check.value
      exact rows.entries.bind fun _ _ _ => tells_pure
    | path =>
      unfold Check.value
      split
      · exact tells_pure
      · refine ha.lookup ?_ fun b b' _ _ => ?_
        · exact level_report rfl fun _ _ => tells_pure
        · exact (rows.fragments _ _).bind fun _ _ _ => tells_pure
    | binaryExpression =>
      unfold Check.value
      refine (rows.firsts 2).bind fun _ _ _ => ?_
      exact reports_betweenType.pair reports_betweenType fun _ _ => tells_pure
    | unaryExpression =>
      unfold Check.value
      refine (rows.firsts 1).bind fun _ _ _ => ?_
      exact reports_beforeType.pair reports_beforeType fun _ _ => tells_pure
    | cast =>
      unfold Check.value
      refine (rows.firsts 1).bind fun _ _ _ => ?_
      exact reports_castType.pair reports_castType fun _ _ => tells_pure
    | expressionStatement => exact parts.ofExpression
    | serviceCall => exact parts.ofCall ha own
    | mutation => exact parts.ofMutation
    | functionCall => exact parts.ofFunctionCall
    | _ => exact tells_pure

end Check

end StoryLang
