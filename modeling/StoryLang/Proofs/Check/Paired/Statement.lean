/-
Statements that are checked with two registries.

A statement declares names in the top scope, the same ones with both registries
though maybe with other types, and what it opens it closes again. So two checks
of the same statements come to the same places, and if they are in accord there,
they give back the same statements.
-/
import StoryLang.Proofs.Check.Paired.Value

namespace StoryLang.Check

variable {α β : Type} {p p' q q' : Place} {s s' t t' : State} {rule : Rule} {line : Option Coord}
  {ps ts : List Tree}

/-! ## Checks that declare names -/

/-- Two places of one kind that are inside of the story. -/
structure Place.Beside (p p' : Place) : Prop extends Place.Alike p p' where
  opened : p.scopes.inner ≠ []

/-- The place with one more scope. -/
def Place.pushed (p : Place) : Place := ⟨p.env, p.scopes.push⟩

/-- The place with the scopes of a state. -/
def Place.from (p : Place) (s : State) : Place := ⟨p.env, s.scopes⟩

/-- The states are as before but for the names of the top scopes, and have the same names. -/
structure Moved (p p' : Place) (t t' : State) : Prop where
  scopes : t.scopes.Alike t'.scopes
  top : t.scopes.Over p.scopes
  top' : t'.scopes.Over p'.scopes
  services : t.services = t'.services

/-- Two checks that give the same and go on to places of one kind. -/
def Moves (p p' : Place) (x x' : Check α) : Prop :=
  ∀ s s', At p p' s s' → Paired x x' s s' fun a t a' t' => a = a' ∧ Moved p p' t t'

namespace Place

theorem Alike.pushed (h : p.Alike p') : p.pushed.Beside p'.pushed where
  features := h.features
  body := h.body
  scopes := h.scopes.push
  opened := by simp [Place.pushed, Scopes.push]

theorem Beside.opened' (h : p.Beside p') : p'.scopes.inner ≠ [] := h.scopes.opened h.opened

theorem Beside.from (h : p.Beside p') (hm : Moved p p' t t') : (p.from t).Beside (p'.from t') where
  features := h.features
  body := h.body
  scopes := hm.scopes
  opened := hm.top.opened

end Place

theorem At.from (hv : s.services = s'.services) : At (p.from s) (p'.from s') s s' := ⟨rfl, rfl, hv⟩

theorem At.push (h : At p p' s s') : At p.pushed p'.pushed { s with scopes := s.scopes.push }
    { s' with scopes := s'.scopes.push } where
  left := congrArg Scopes.push h.left
  right := congrArg Scopes.push h.right
  services := h.services

theorem At.moved (h : At p p' s s') (hb : p.Beside p') : Moved p p' s s' where
  scopes := by
    rw [h.left, h.right]
    exact hb.scopes
  top := by
    rw [h.left]
    exact .refl hb.opened
  top' := by
    rw [h.right]
    exact .refl hb.opened'
  services := h.services

theorem Moved.trans (h : Moved p p' s s') (h' : Moved (p.from s) (p'.from s') t t') :
    Moved p p' t t' where
  scopes := h'.scopes
  top := h'.top.trans h.top
  top' := h'.top'.trans h.top'
  services := h'.services

theorem Level.moves {x x' : Check α} (h : Level p p' x x' (· = ·)) (hb : p.Beside p') :
    Moves p p' x x' :=
  fun s s' hs => (h s s' hs).mono fun _ _ _ _ ht => ⟨ht.2, ht.1.moved hb⟩

theorem Level.bindMoves {x x' : Check α} {f f' : α → Check β} {mid : α → α → Prop}
    (h : Level p p' x x' mid) (hf : ∀ a a', mid a a' → Moves p p' (f a) (f' a')) :
    Moves p p' (x >>= f) (x' >>= f') := by
  intro s s' hs
  refine (h s s' hs).bind fun a t a' t' _ _ ht => ?_
  exact hf a a' ht.2 t t' ht.1

theorem Moves.bind {x x' : Check α} {f f' : α → Check β} (h : Moves p p' x x')
    (hf : ∀ a t t', Moved p p' t t' → Moves (p.from t) (p'.from t') (f a) (f' a)) :
    Moves p p' (x >>= f) (x' >>= f') := by
  intro s s' hs
  refine (h s s' hs).bind fun a t a' t' _ _ hm => ?_
  obtain ⟨rfl, hm⟩ := hm
  exact (hf a t t' hm t t' (.from hm.services)).mono fun _ _ _ _ hn => ⟨hn.1, hm.trans hn.2⟩

theorem Moves.map {x x' : Check α} (h : Moves p p' x x') (f : α → β) :
    Moves p p' (x >>= fun a => pure (f a)) (x' >>= fun a => pure (f a)) := by
  intro s s' hs
  refine (h s s' hs).bind fun a t a' t' _ _ hm => ?_
  obtain ⟨rfl, hm⟩ := hm
  exact paired_pure ⟨rfl, hm⟩

theorem moves_declare (hb : p.Beside p') (name : String) (ty ty' : Ty) (line : Option Coord)
    (place : Position) : Moves p p' (declare name ty line place) (declare name ty' line place) := by
  intro s s' hs a t a' t' hx hx'
  refine ⟨rfl, ?_⟩
  unfold declare at hx hx'
  rw [hs.left] at hx
  rw [hs.right] at hx'
  rcases hb.scopes.declare hb.opened name ty ty' line with
    ⟨b, b', hd, hd', halike, hover, hover'⟩ | ⟨e, e', hd, hd'⟩
  · rw [hd] at hx
    rw [hd'] at hx'
    obtain ⟨-, rfl⟩ := Prod.mk.inj (Except.ok.inj hx)
    obtain ⟨-, rfl⟩ := Prod.mk.inj (Except.ok.inj hx')
    exact ⟨halike, hover, hover', hs.services⟩
  · rw [hd] at hx
    rw [hd'] at hx'
    obtain ⟨-, rfl⟩ := Prod.mk.inj (Except.ok.inj hx)
    obtain ⟨-, rfl⟩ := Prod.mk.inj (Except.ok.inj hx')
    exact At.moved ⟨hs.left, hs.right, hs.services⟩ hb

theorem moves_declareAll (hb : p.Beside p') (line : Option Coord) (names : List Token)
    (tys tys' : List Ty) : Moves p p' (declareAll line names tys) (declareAll line names tys') := by
  induction names generalizing p p' tys tys' with
  | nil => exact (level_pure rfl).moves hb
  | cons name names ih =>
    unfold declareAll
    exact (moves_declare hb _ _ _ _ _).bind fun _ t t' hm => ih (hb.from hm) _ _

theorem moves_declareOutput (hb : p.Beside p') (t : Tree) (ty ty' : Ty) :
    Moves p p' (declareOutput t ty) (declareOutput t ty') :=
  moves_declareAll hb _ _ _ _

/-! ## Blocks -/

/-- Two checks of the statements of each block in a row give back the same, and go on
to places of one kind. -/
def BlocksMove (p p' : Place) (ps : List Tree) : Prop :=
  ∀ line body, .node .block line body ∈ ps →
    Moves p p' (statements p.env .open body) (statements p'.env .open body)

theorem BlocksMove.tail {t : Tree} (h : BlocksMove p p' (t :: ps)) : BlocksMove p p' ps :=
  fun line body hb => h line body (by simp [hb])

theorem moves_bodyOf (hb : p.Beside p') (h : BlocksMove p p' ps) :
    Moves p p' (bodyOf p.env ps) (bodyOf p'.env ps) := by
  induction ps with
  | nil => exact (level_pure rfl).moves hb
  | cons t ps ih =>
    cases t with
    | token u => exact ih h.tail
    | node r l inner =>
      by_cases hr : r = .block
      · subst hr
        unfold bodyOf
        exact (h l inner (by simp)).map _
      · have hc : ∀ e, bodyOf e (.node r l inner :: ps) = bodyOf e ps := by
          intro e
          cases r <;> first | exact absurd rfl hr | rfl
        rw [hc, hc]
        exact ih h.tail

theorem Paired.push {f f' : Unit → Check α} {post : α → State → α → State → Prop}
    (h : Paired (f ()) (f' ()) { s with scopes := s.scopes.push } { s' with scopes := s'.scopes.push }
      post) : Paired (Check.push >>= f) (Check.push >>= f') s s' post :=
  h

/-- What a scope was opened for is checked, and then the scope is closed again. -/
theorem paired_closed {x x' : Check α} (h : Moves q q' x x') (ht : At q q' t t')
    (hq : q.scopes.dropTop = p.scopes) (hq' : q'.scopes.dropTop = p'.scopes) (f : α → β) :
    Paired (x >>= fun a => pop >>= fun _ => pure (f a)) (x' >>= fun a => pop >>= fun _ => pure (f a))
      t t' fun b u b' u' => At p p' u u' ∧ b = b' := by
  refine (h t t' ht).bind fun a u a' u' _ _ hm => ?_
  obtain ⟨rfl, hm⟩ := hm
  intro b w b' w' hx hx'
  obtain ⟨rfl, rfl⟩ := Prod.mk.inj (Except.ok.inj hx)
  obtain ⟨rfl, rfl⟩ := Prod.mk.inj (Except.ok.inj hx')
  exact ⟨⟨hm.top.below.trans hq, hm.top'.below.trans hq', hm.services⟩, rfl⟩

theorem level_inOwnScope {x x' : Check α} (h : Moves p.pushed p'.pushed x x') :
    Level p p' (inOwnScope x) (inOwnScope x') (· = ·) := by
  intro s s' hs
  exact paired_closed h hs.push (Scopes.dropTop_push _) (Scopes.dropTop_push _) id

theorem level_blockOf (h : BlocksMove p.pushed p'.pushed ps) :
    Level p p' (blockOf p.env ps) (blockOf p'.env ps) (· = ·) := by
  induction ps with
  | nil => exact level_pure rfl
  | cons t ps ih =>
    cases t with
    | token u => exact ih h.tail
    | node r l inner =>
      by_cases hr : r = .block
      · subst hr
        unfold blockOf
        refine (level_inOwnScope (h l inner (by simp))).bind fun _ _ ha => ?_
        exact level_pure (by rw [ha])
      · have hc : ∀ e, blockOf e (.node r l inner :: ps) = blockOf e ps := by
          intro e
          cases r <;> first | exact absurd rfl hr | rfl
        rw [hc, hc]
        exact ih h.tail

/-- The same for a block with names that are declared for it. -/
theorem paired_body {x x' : Check Unit} (hb : q.Beside q') (hx : Moves q q' x x') (hs : At q q' s s')
    (hq : q.scopes.dropTop = p.scopes) (hq' : q'.scopes.dropTop = p'.scopes)
    (hbody : ∀ t t', x s = .ok ((), t) → x' s' = .ok ((), t') → (q.from t).Beside (q'.from t') →
      BlocksMove (q.from t) (q'.from t') ps) (f : Option Tree → α) :
    Paired (x >>= fun _ => bodyOf q.env ps >>= fun body => pop >>= fun _ => pure (f body))
      (x' >>= fun _ => bodyOf q'.env ps >>= fun body => pop >>= fun _ => pure (f body)) s s'
      fun a t a' t' => At p p' t t' ∧ a = a' := by
  refine (hx s s' hs).bind fun _ t _ t' h h' hm => ?_
  have hfrom := hb.from hm.2
  exact paired_closed (moves_bodyOf hfrom (hbody t t' h h' hfrom)) (.from hm.2.services)
    (hm.2.top.below.trans hq) (hm.2.top'.below.trans hq') f

/-! ## Parts of statements -/

/-- Two checks of the parts of a statement or branch give back the same, if a scope is
opened for each of its blocks. -/
structure PartsMove (p p' : Place) (ps : List Tree) : Prop where
  values : PartsTell p p' ps
  blocks : BlocksMove p.pushed p'.pushed ps

theorem PartsMove.tail {t : Tree} (h : PartsMove p p' (t :: ps)) : PartsMove p p' ps :=
  ⟨h.values.tail, h.blocks.tail⟩

theorem level_condition {t : Tree} (h : Tells p p' (value p.env t) (value p'.env t)) :
    Level p p' (condition p.env t) (condition p'.env t) (· = ·) := by
  refine h.bind fun t ty ty' => ?_
  have reported : ∀ (r : Option Registry) (strict : Bool) (ty : Ty), Quiet Code.ofUse r (do
      if strict && !ty.logical then report .conditionType [ty.text] t.position?
      return t) (· = t) := by
    intro r strict ty
    exact quiet_ite (quiet_report rfl fun _ => quiet_pure rfl) (quiet_pure rfl)
  refine Quiet.level (reported p.env.registry _ ty) (reported p'.env.registry _ ty') ?_
  rintro _ _ rfl rfl
  rfl

theorem level_branch (h : PartsMove p p' ps) :
    Level p p' (branch p.env ps) (branch p'.env ps) (· = ·) := by
  induction ps with
  | nil => exact level_pure rfl
  | cons t ps ih =>
    have rest := ih h.tail
    cases t with
    | token u =>
      unfold branch
      exact rest.bind fun _ _ ha => level_pure (by rw [ha])
    | node r l inner =>
      by_cases hr : r = .block
      · subst hr
        unfold branch
        refine (level_inOwnScope (h.blocks l inner (by simp))).bind fun _ _ hbody => ?_
        exact rest.bind fun _ _ ha => level_pure (by rw [hbody, ha])
      · have hc : ∀ e, branch e (.node r l inner :: ps) =
            condition e (.node r l inner) >>= fun first => branch e ps >>= fun rest =>
              pure (first :: rest) := by
          intro e
          cases r <;> first | exact absurd rfl hr | rfl
        rw [hc, hc]
        refine (level_condition (h.values.value List.mem_cons_self)).bind fun _ _ hfirst => ?_
        exact rest.bind fun _ _ ha => level_pure (by rw [hfirst, ha])

theorem level_branches (h : PartsMove p p' ps)
    (hr : ∀ b ∈ ps, b.isBranch = true → b.isA .catchBlock = false → PartsMove p p' b.parts) :
    Level p p' (branches p.env ps) (branches p'.env ps) (· = ·) := by
  induction ps with
  | nil => exact level_pure rfl
  | cons t ps ih =>
    have rest := ih h.tail fun b hb => hr b (by simp [hb])
    have hbranch := hr t (by simp)
    cases t with
    | token u =>
      unfold branches
      exact rest.bind fun _ _ ha => level_pure (by rw [ha])
    | node r l inner =>
      have other : Level p p' (condition p.env (.node r l inner) >>= fun first =>
            branches p.env ps >>= fun rest => pure (first :: rest))
          (condition p'.env (.node r l inner) >>= fun first =>
            branches p'.env ps >>= fun rest => pure (first :: rest)) (· = ·) := by
        refine (level_condition (h.values.value List.mem_cons_self)).bind fun _ _ hfirst => ?_
        exact rest.bind fun _ _ ha => level_pure (by rw [hfirst, ha])
      cases r with
      | block =>
        unfold branches
        refine (level_inOwnScope (h.blocks l inner (by simp))).bind fun _ _ hbody => ?_
        exact rest.bind fun _ _ ha => level_pure (by rw [hbody, ha])
      | elifBlock =>
        unfold branches
        refine (level_branch (hbranch rfl rfl)).bind fun _ _ hinside => ?_
        exact rest.bind fun _ _ ha => level_pure (by rw [hinside, ha])
      | elseBlock =>
        unfold branches
        refine (level_blockOf (hbranch rfl rfl).blocks).bind fun _ _ hbody => ?_
        exact rest.bind fun _ _ ha => level_pure (by rw [hbody, ha])
      | _ => exact other

/-- Wherever the blocks of a statement or branch start, two checks of them move. -/
def Ready (p p' : Place) (t : Tree) : Prop :=
  ∀ q q', p.Enters t q → p'.Enters t q' → q.Beside q' → BlocksMove q q' t.parts

/-- For most statements nothing is done before a block but opening a scope. -/
theorem Place.enters_pushed {t : Tree} (he : ∀ e, entering e t = push >>= fun _ => pure e.body) :
    p.Enters t p.pushed :=
  ⟨{ scopes := p.scopes, reports := [], services := .empty }, p.env.body, _, rfl, by rw [he]; rfl, rfl⟩

theorem Ready.pushed {t : Tree} (h : Ready p p' t) (ha : p.Alike p')
    (he : ∀ e, entering e t = push >>= fun _ => pure e.body) :
    BlocksMove p.pushed p'.pushed t.parts :=
  h _ _ (Place.enters_pushed he) (Place.enters_pushed he) ha.pushed

theorem level_catch (ha : p.Alike p') (h : Ready p p' (.node .catchBlock line ps))
    (f : Option Tree → α) :
    Level p p' (push >>= fun _ => declareOutput (.node .catchBlock line ps) .anyObject >>= fun _ =>
        bodyOf p.env ps >>= fun body => pop >>= fun _ => pure (f body))
      (push >>= fun _ => declareOutput (.node .catchBlock line ps) .anyObject >>= fun _ =>
        bodyOf p'.env ps >>= fun body => pop >>= fun _ => pure (f body)) (· = ·) := by
  intro s s' hs
  have entered : ∀ {p : Place} {s t : State}, s.scopes = p.scopes →
      declareOutput (.node .catchBlock line ps) .anyObject { s with scopes := s.scopes.push } =
        .ok ((), t) → p.Enters (.node .catchBlock line ps) (p.pushed.from t) :=
    fun hs hx => ⟨_, _, _, hs, bind_ok_iff.2 ⟨(), _, rfl, bind_ok_iff.2 ⟨(), _, hx, rfl⟩⟩, rfl⟩
  exact paired_body ha.pushed (moves_declareOutput ha.pushed _ _ _) hs.push
    (Scopes.dropTop_push _) (Scopes.dropTop_push _)
    (fun t t' hx hx' hb => h _ _ (entered hs.left hx) (entered hs.right hx') hb) f

theorem level_handlers (ha : p.Alike p') (h : BlocksMove p.pushed p'.pushed ps)
    (hr : ∀ b ∈ ps, b.isBranch = true → Ready p p' b) :
    Level p p' (handlers p.env ps) (handlers p'.env ps) (· = ·) := by
  induction ps with
  | nil => exact level_pure rfl
  | cons t ps ih =>
    have rest := ih h.tail fun b hb => hr b (by simp [hb])
    have hbranch := hr t (by simp)
    have other : Level p p' (handlers p.env ps >>= fun rest => pure (t :: rest))
        (handlers p'.env ps >>= fun rest => pure (t :: rest)) (· = ·) :=
      rest.bind fun _ _ ha => level_pure (by rw [ha])
    cases t with
    | token u => exact other
    | node r l inner =>
      cases r with
      | block =>
        unfold handlers
        refine (level_inOwnScope (h l inner (by simp))).bind fun _ _ hbody => ?_
        exact rest.bind fun _ _ ha => level_pure (by rw [hbody, ha])
      | catchBlock =>
        have hc : ∀ e, handlers e (.node .catchBlock l inner :: ps) =
            (push >>= fun _ => declareOutput (.node .catchBlock l inner) .anyObject >>= fun _ =>
              bodyOf e inner >>= fun body => pop >>= fun _ =>
              pure (Tree.node .catchBlock l (Tree.putFirst .block body inner))) >>= fun first =>
              handlers e ps >>= fun rest => pure (first :: rest) := by
          intro e
          conv => lhs; unfold handlers
          simp only [bind_assoc, pure_bind]
        rw [hc, hc]
        refine (level_catch ha (hbranch rfl) _).bind fun _ _ hfirst => ?_
        exact rest.bind fun _ _ ha => level_pure (by rw [hfirst, ha])
      | finallyBlock =>
        unfold handlers
        refine (level_blockOf ((hbranch rfl).pushed ha fun _ => rfl)).bind fun _ _ hbody => ?_
        exact rest.bind fun _ _ ha => level_pure (by rw [hbody, ha])
      | _ => exact other

/-! ## Statements without blocks -/

theorem PartsTell.nodeValue (h : PartsTell p p' ps) (i : Nat) :
    Tells p p' (nodeValue p.env i ps) (nodeValue p'.env i ps) := by
  unfold Check.nodeValue
  split
  · exact tells_pure
  · rename_i t ht
    have hmem : t ∈ ps := List.mem_of_mem_filter (List.mem_of_getElem? ht)
    exact (h.value hmem).bind fun _ _ _ => tells_pure

/-- A value of the wrong type is reported, and what is given back stays as it is. -/
theorem reported_returned (r : Option Registry) {given : Option Tree} {body : Option Body} {ty : Ty}
    {ps : List Tree} :
    Quiet Code.ofUse r (do
      match given, body with
      | some t, some body =>
        if !body.returns.accepts ty then
          report .returnType [body.name, body.returns.text, ty.text] t.position?
      | _, _ => pure ()
      return Tree.putNode given 0 ps) (· = Tree.putNode given 0 ps) := by
  split
  · exact quiet_ite (quiet_report rfl fun _ => quiet_pure rfl) (quiet_pure rfl)
  · exact quiet_pure rfl

theorem PartsTell.returned (h : PartsTell p p' ps) :
    Level p p' (returned p.env ps) (returned p'.env ps) (· = ·) := by
  refine (h.nodeValue 0).bind fun given ty ty' => ?_
  refine Quiet.level (reported_returned p.env.registry) (reported_returned p'.env.registry) ?_
  rintro _ _ rfl rfl
  rfl

theorem moves_assignment (hb : p.Beside p') (h : PartsTell p p' ps) (t : Tree) :
    Moves p p' (assignment p.env t ps) (assignment p'.env t ps) := by
  refine (h.nodeValue 1).bindMoves fun out out' ho => ?_
  obtain ⟨source, ty⟩ := out
  obtain ⟨source', ty'⟩ := out'
  obtain rfl : source = source' := ho
  dsimp only
  split
  · exact (level_pure rfl).moves hb
  · rename_i path hpath
    rw [find?_putNode_succ] at hpath
    split
    · exact (level_pure rfl).moves hb
    · rename_i root hroot
      split
      · refine Level.moves ?_ hb
        refine (h.value (List.mem_of_find?_eq_some hpath)).bind fun path _ _ => ?_
        exact reports_assignable.pair reports_assignable fun _ _ => level_pure rfl
      · refine (level_lookup root.literal).bindMoves fun found found' hf => ?_
        obtain ⟨rfl, rfl⟩ := hf
        rcases hb.found root.literal with ⟨h, h'⟩ | ⟨b, b', h, h'⟩
        · rw [h, h']
          exact (moves_declare hb _ _ _ _ _).map fun _ => Tree.putNode source 1 ps
        · rw [h, h']
          refine Level.moves ?_ hb
          exact reports_assignable.pair reports_assignable fun _ _ => level_pure rfl

/-! ## Statements with blocks -/

theorem level_foreach (ha : p.Alike p') (h : PartsTell p p' ps)
    (hr : Ready p p' (.node .foreachBlock line ps)) :
    Level p p' (statement p.env (.node .foreachBlock line ps))
      (statement p'.env (.node .foreachBlock line ps)) (· = ·) := by
  unfold statement
  intro s s' hs
  refine (h.nodeValue 0 s s' hs).bind fun out t out' t' hv hv' ht => ?_
  obtain ⟨source, ty⟩ := out
  obtain ⟨source', ty'⟩ := out'
  obtain ⟨ht, rfl⟩ : At p p' t t' ∧ source = source' := ht
  refine (Reports.level reports_iteratedTypes reports_iteratedTypes t t' ht).bind
    fun tys u tys' u' hi hi' hu => ?_
  have entered : ∀ {p : Place} {ty tys s t u w}, s.scopes = p.scopes →
      nodeValue p.env 0 ps s = .ok ((source, ty), t) →
      iteratedTypes ty (outputNames ps).length (source.bind (·.position?)) t = .ok (tys, u) →
      declareAll (Tree.line? (.node .foreachBlock line ps)) (outputNames ps) tys
        { u with scopes := u.scopes.push } = .ok ((), w) →
      p.Enters (.node .foreachBlock line ps) (p.pushed.from w) :=
    fun hs hv hi hd => ⟨_, _, _, hs, bind_ok_iff.2 ⟨_, _, hv, bind_ok_iff.2 ⟨_, _, hi,
      bind_ok_iff.2 ⟨(), _, rfl, bind_ok_iff.2 ⟨(), _, hd, rfl⟩⟩⟩⟩, rfl⟩
  exact paired_body ha.pushed (moves_declareAll ha.pushed _ _ _ _) hu.1.push
    (Scopes.dropTop_push _) (Scopes.dropTop_push _) (fun w w' hd hd' hb =>
      hr _ _ (entered hs.left hv hi hd) (entered hs.right hv' hi' hd') hb) _

theorem level_topNumber (ha : p.Alike p') :
    Level p p' topNumber topNumber fun n n' => n = p.scopes.depth - 1 ∧ n' = n := by
  intro s s' hs a t a' t' hx hx'
  obtain ⟨rfl, rfl⟩ := Prod.mk.inj (Except.ok.inj hx)
  obtain ⟨rfl, rfl⟩ := Prod.mk.inj (Except.ok.inj hx')
  exact ⟨hs, by rw [hs.left], by rw [hs.left, hs.right, ha.scopes.depth]⟩

theorem level_function (ha : p.Alike p') (hr : Ready p p' (.node .functionBlock line ps)) :
    Level p p' (statement p.env (.node .functionBlock line ps))
      (statement p'.env (.node .functionBlock line ps)) (· = ·) := by
  unfold statement
  split
  · exact level_pure rfl
  · rename_i name hname
    intro s s' hs
    have hpushed := ha.pushed
    refine Paired.push ?_
    refine (level_topNumber hpushed.toAlike _ _ hs.push).bind fun floor t floor' t' hn hn' ht => ?_
    obtain ⟨ht, -, rfl⟩ := ht
    -- Both bodies start in the scope of the same number.
    let body : Body := ⟨name.literal, spelledOrAny (returnTypes ps), floor'⟩
    let q : Place := ⟨{ p.env with body := some body }, p.scopes.push⟩
    let q' : Place := ⟨{ p'.env with body := some body }, p'.scopes.push⟩
    have hq : q.Beside q' := ⟨⟨ha.features, rfl, hpushed.scopes⟩, hpushed.opened⟩
    have entered : ∀ {p : Place} {s t u : State}, s.scopes = p.scopes →
        topNumber { s with scopes := s.scopes.push } = .ok (floor', t) →
        declareAll (Tree.line? (.node .functionBlock line ps))
          (((ps.filter (·.isA .parameter)).filterMap parameter?).map (·.1))
          (((ps.filter (·.isA .parameter)).filterMap parameter?).map (·.2)) t = .ok ((), u) →
        p.Enters (.node .functionBlock line ps) ⟨{ p.env with body := some body }, u.scopes⟩ := by
      intro p s t u hs hn hd
      refine ⟨s, some body, u, hs, ?_, rfl⟩
      unfold entering
      refine bind_ok_iff.2 ⟨(), _, rfl, ?_⟩
      rw [hname]
      exact bind_ok_iff.2 ⟨_, _, hn, bind_ok_iff.2 ⟨(), _, hd, rfl⟩⟩
    exact paired_body hq (moves_declareAll hq _ _ _ _) ⟨ht.left, ht.right, ht.services⟩
      (Scopes.dropTop_push _) (Scopes.dropTop_push _) (fun u u' hd hd' hb =>
        hr _ _ (entered hs.left hn hd) (entered hs.right hn' hd') hb) _

theorem level_when (ha : p.Alike p') (h : PartsTell p p' ps)
    (hr : Ready p p' (.node .whenBlock line ps)) :
    Level p p' (statement p.env (.node .whenBlock line ps))
      (statement p'.env (.node .whenBlock line ps)) (· = ·) := by
  unfold statement
  intro s s' hs
  refine (h.arguments s s' hs).bind fun out t out' t' hg hg' ht => ?_
  obtain ⟨given, supplied⟩ := out
  obtain ⟨given', supplied'⟩ := out'
  obtain ⟨ht, rfl⟩ : At p p' t t' ∧ given = given' := ht
  dsimp only
  split
  · exact paired_pure ⟨ht, rfl⟩
  · rename_i root hroot
    refine (ha.listening t t' ht).bind fun ty u ty' u' hl hl' hu => ?_
    have entered : ∀ {p : Place} {supplied ty s t u w}, s.scopes = p.scopes →
        argumentsOf p.env ps s = .ok ((given, supplied), t) →
        listening p.env root (nameOf? ps) supplied t = .ok (ty, u) →
        declareOutput (.node .whenBlock line ps) ty { u with scopes := u.scopes.push } =
          .ok ((), w) →
        p.Enters (.node .whenBlock line ps) (p.pushed.from w) := by
      intro p supplied ty s t u w hs hg hl hd
      refine ⟨s, p.env.body, w, hs, ?_, rfl⟩
      unfold entering
      refine bind_ok_iff.2 ⟨_, _, hg, ?_⟩
      rw [hroot]
      exact bind_ok_iff.2 ⟨_, _, hl, bind_ok_iff.2 ⟨(), _, rfl, bind_ok_iff.2 ⟨(), _, hd, rfl⟩⟩⟩
    exact paired_body ha.pushed (moves_declareOutput ha.pushed _ _ _) hu.1.push
      (Scopes.dropTop_push _) (Scopes.dropTop_push _) (fun w w' hd hd' hb =>
        hr _ _ (entered hs.left hg hl hd) (entered hs.right hg' hl' hd') hb) _

/-- A call in a list of statements: its outputs are declared, and then its block is checked. -/
theorem moves_call (hb : p.Beside p') (hc : rule = .serviceCall ∨ rule = .mutation)
    (h : Tells p p' (value p.env (.node rule line ps)) (value p'.env (.node rule line ps)))
    (hr : Ready p p' (.node rule line ps)) :
    Moves p p' (statement p.env (.node rule line ps)) (statement p'.env (.node rule line ps)) := by
  rw [statement_call hc, statement_call hc]
  intro s s' hs
  refine (h s s' hs).bind fun out t out' t' hv hv' ht => ?_
  obtain ⟨made, ty⟩ := out
  obtain ⟨made', ty'⟩ := out'
  obtain ⟨ht, rfl⟩ : At p p' t t' ∧ made = made' := ht
  refine (moves_declareOutput hb made ty ty' t t' ht).bind fun _ u _ u' hd hd' hm => ?_
  have hfrom := hb.from hm.2
  have entered : ∀ {p : Place} {ty s t u}, s.scopes = p.scopes →
      value p.env (.node rule line ps) s = .ok ((made, ty), t) →
      declareOutput made ty t = .ok ((), u) →
      p.Enters (.node rule line ps) (p.from u).pushed := by
    intro p ty s t u hs hv hd
    refine ⟨s, p.env.body, { u with scopes := u.scopes.push }, hs, ?_, rfl⟩
    rcases hc with rfl | rfl <;> unfold entering <;>
      exact bind_ok_iff.2 ⟨_, _, hv, bind_ok_iff.2 ⟨(), _, hd, bind_ok_iff.2 ⟨(), _, rfl, rfl⟩⟩⟩
  have hblocks := hr _ _ (entered hs.left hv hd) (entered hs.right hv' hd') hfrom.pushed
  refine (level_blockOf hblocks u u' (.from hm.2.services)).bind fun body w body' w' _ _ hw => ?_
  obtain ⟨hw, rfl⟩ := hw
  have hmoved := hm.2.trans (hw.moved hfrom)
  split <;> exact paired_pure ⟨rfl, hmoved⟩

/-! ## Lists of statements -/

/-- Two checks of a statement that are in accord give back the same statement. -/
def StatementMoves (t : Tree) : Prop :=
  ∀ p p' : Place, p.Beside p' → Accord p p' [t] →
    Moves p p' (statement p.env t) (statement p'.env t)

/-- The same for a list of statements. -/
def ListMoves (ts : List Tree) : Prop :=
  ∀ (p p' : Place) (flow : Flow), p.Beside p' → Accord p p' ts →
    Moves p p' (statements p.env flow ts) (statements p'.env flow ts)

theorem level_enter (flow : Flow) (t : Tree) :
    Level p p' (flow.enter t) (flow.enter t) (· = ·) := by
  cases flow with
  | stopped keyword => exact level_report rfl fun _ _ => level_pure rfl
  | «open» | reported => exact level_pure rfl

theorem ListMoves.of (h : ∀ t ∈ ts, StatementMoves t) : ListMoves ts := by
  induction ts with
  | nil => exact fun p p' flow hb _ => (level_pure rfl).moves hb
  | cons t ts ih =>
    intro p p' flow hb hacc
    have ih := ih fun u hu => h u (by simp [hu])
    cases t with
    | token u =>
      unfold statements
      have passes : ∀ p : Place, p.Passes (.token u) p := fun p =>
        ⟨{ scopes := p.scopes, reports := [], services := .empty }, .token u, _, rfl, rfl, rfl⟩
      exact (ih p p' flow hb (hacc.later (passes p) (passes p'))).map _
    | node r l inner =>
      unfold statements
      intro s s' hs
      refine (level_enter flow _ s s' hs).bind fun flow t flow' t' _ _ ht => ?_
      obtain ⟨ht, rfl⟩ := ht
      have hfirst := h _ (by simp) p p' hb hacc.head
      refine (hfirst t t' ht).bind fun made u made' u' hx hx' hm => ?_
      obtain ⟨rfl, hm⟩ := hm
      have hlater := hacc.later ⟨t, made, u, ht.left, hx, rfl⟩ ⟨t', made, u', ht.right, hx', rfl⟩
      have hrest := (ih (p.from u) (p'.from u') (flow.after made) (hb.from hm) hlater).map (made :: ·)
      exact (hrest u u' (.from hm.services)).mono fun _ _ _ _ hn => ⟨hn.1, hm.trans hn.2⟩

/-- Accord about a statement is accord about its parts, and so about its blocks wherever
they start. -/
theorem ready_of_accord {t : Tree} (hacc : Accord p p' [t]) (h : ∀ q ∈ t.parts, ListMoves q.parts) :
    Ready p p' t :=
  fun q q' he he' hb _ _ hbody =>
    h _ hbody q q' .open hb (hacc.inside hbody he he')

theorem partsTell_of_accord {t : Tree} (ha : p.Alike p') (hacc : Accord p p' [t]) :
    PartsTell p p' t.parts :=
  fun u hu hc => valueTells ha u (hacc.own.part hu hc)

theorem entering_branch {t : Tree} (hb : t.isBranch = true) (hc : t.isA .catchBlock = false) (e : Env) :
    entering e t = push >>= fun _ => pure e.body := by
  cases t with
  | token u => simp [Tree.isBranch, Tree.rule?] at hb
  | node r l ps =>
    cases r <;> simp [Tree.isBranch, Tree.isA, Tree.rule?, Rule.isBranch] at hb hc <;> rfl

theorem partsMove_of_accord {t : Tree} (ha : p.Alike p') (hacc : Accord p p' [t])
    (h : ∀ q ∈ t.parts, ListMoves q.parts)
    (he : ∀ e, entering e t = push >>= fun _ => pure e.body) : PartsMove p p' t.parts :=
  ⟨partsTell_of_accord ha hacc, (ready_of_accord hacc h).pushed ha he⟩

/-- What a tree gives back as a statement, and as the branch of one. -/
structure TreeMoves (t : Tree) : Prop where
  statement : StatementMoves t
  list : ListMoves t.parts
  blocks : ∀ q ∈ t.parts, ListMoves q.parts

theorem treeMoves (t : Tree) : TreeMoves t := by
  induction t using Tree.byParts with
  | token u =>
    refine ⟨fun p p' hb _ => (level_pure rfl).moves hb, .of nofun, nofun⟩
  | node rule line ps ih =>
    have hlists : ∀ q ∈ ps, ListMoves q.parts := fun q hq => (ih q hq).list
    refine ⟨fun p p' hb hacc => ?_, .of fun q hq => (ih q hq).statement, hlists⟩
    have ha := hb.toAlike
    have parts : PartsTell p p' ps := partsTell_of_accord ha hacc
    have ready : Ready p p' (.node rule line ps) := ready_of_accord hacc hlists
    have branches : ∀ b ∈ ps, b.isBranch = true → Ready p p' b := fun b hbp hbr =>
      ready_of_accord (hacc.branch hbp hbr) (ih b hbp).blocks
    cases rule with
    | assignment =>
      unfold Check.statement
      exact (moves_assignment hb parts _).map _
    | serviceCall =>
      exact moves_call hb (.inl rfl) (parts.ofCall ha (hacc.own _ (by simp [Tree.ownNodes]))) ready
    | mutation => exact moves_call hb (.inr rfl) parts.ofMutation ready
    | functionCall => exact parts.ofFunctionCall.first.moves hb
    | expressionStatement => exact parts.ofExpression.first.moves hb
    | ifBlock =>
      unfold Check.statement
      refine Level.moves ?_ hb
      refine (level_branches ⟨parts, ready.pushed ha fun _ => rfl⟩ fun b hbp hbr hbc => ?_).bind
        fun _ _ h => level_pure (by rw [h])
      exact partsMove_of_accord ha (hacc.branch hbp hbr) (ih b hbp).blocks (entering_branch hbr hbc)
    | tryBlock =>
      unfold Check.statement
      refine Level.moves ?_ hb
      exact (level_handlers ha (ready.pushed ha fun _ => rfl) branches).bind fun _ _ h =>
        level_pure (by rw [h])
    | whileBlock =>
      have rest : ∀ first, Level p p' (blockOf p.env ps >>= fun body => pure (Tree.node .whileBlock line
            (Tree.putFirst .block body (Tree.putNode first 0 ps))))
          (blockOf p'.env ps >>= fun body => pure (Tree.node .whileBlock line
            (Tree.putFirst .block body (Tree.putNode first 0 ps)))) (· = ·) := fun first =>
        (level_blockOf (ready.pushed ha fun _ => rfl)).bind fun _ _ h => level_pure (by rw [h])
      refine Level.moves ?_ hb
      unfold Check.statement
      dsimp only
      split
      · rename_i t ht
        simp only [map_eq_pure_bind, bind_assoc, pure_bind]
        refine (level_condition (parts.value (List.mem_of_find?_eq_some ht))).bind fun first _ h => ?_
        obtain rfl := h
        exact rest (some first)
      · exact rest none
    | foreachBlock => exact (level_foreach ha parts ready).moves hb
    | functionBlock => exact (level_function ha ready).moves hb
    | whenBlock => exact (level_when ha parts ready).moves hb
    | returnStatement =>
      unfold Check.statement
      exact (parts.returned.bind fun _ _ h => level_pure (by rw [h])).moves hb
    | throwStatement =>
      unfold Check.statement
      exact Level.moves ((parts.nodeValue 0).bind fun _ _ _ => level_pure rfl) hb
    | importStatement =>
      unfold Check.statement
      split
      · exact (level_pure rfl).moves hb
      · exact (moves_declare hb _ _ _ _ _).map fun _ => Tree.node .importStatement line ps
    | _ => exact (level_pure rfl).moves hb

/-! ## Stories -/

/-- Two checks of a tree that take every call in the same way, after they have found the
same functions. -/
theorem paired_tree {features : Features} {r r' : Option Registry} {root : Scope} {t : Tree}
    (hc : CallsAlike features r r' root t) :
    Paired (tree features r t) (tree features r' t)
      { scopes := .ofRoot root, reports := [], services := .empty }
      { scopes := .ofRoot root, reports := [], services := .empty }
      fun a s a' s' => a.1 = a'.1 ∧ s.services = s'.services := by
  have same : ∀ (x : Check (NameMap Signature)) (s : State),
      Paired x x s s fun a s a' s' => a = a' ∧ s = s' :=
    fun x s a t a' t' hx hx' => Prod.mk.inj (Except.ok.inj (hx.symm.trans hx'))
  refine (same (signatures t) _).bind fun functions s functions' s' hx _ hs => ?_
  obtain ⟨rfl, rfl⟩ := hs
  have hstart : s.scopes = .ofRoot root := by
    have hr := @logs_signatures r t { scopes := .ofRoot root, reports := [], services := .empty }
    rw [hx] at hr
    exact hr.1.1
  let p : Place := ⟨{ features, registry := r, functions, body := none }, .ofRoot root⟩
  let p' : Place := ⟨{ features, registry := r', functions, body := none }, .ofRoot root⟩
  have hp : p.pushed.Beside p'.pushed := Place.Alike.pushed ⟨rfl, rfl, .ofRoot root⟩
  have hs : At p.pushed p'.pushed { s with scopes := s.scopes.push }
      { s with scopes := s.scopes.push } := At.push ⟨hstart, hstart, rfl⟩
  refine Paired.push ?_
  cases t with
  | token u => exact paired_pure ⟨rfl, rfl⟩
  | node rule line ps =>
    have hlist : ListMoves ps := .of fun q _ => (treeMoves q).statement
    have hmoves := hlist p.pushed p'.pushed .open hp (hc functions s hx)
    refine (hmoves _ _ hs).bind fun made u made' u' _ _ hm => ?_
    obtain ⟨rfl, hm⟩ := hm
    exact paired_pure ⟨rfl, hm.services⟩

/-- Two checks of a story that take every call in the same way give back the same tree
and find the same services. -/
theorem story_alike {features : Features} {r r' : Option Registry} {root : Scope} {t u u' : Tree}
    {a a' : Analysis} (hc : CallsAlike features r r' root t)
    (h : story features r root t = .ok (u, a)) (h' : story features r' root t = .ok (u', a')) :
    u = u' ∧ a.services = a'.services := by
  obtain ⟨out, hout, h⟩ := ok_of_bind h
  obtain ⟨out', hout', h'⟩ := ok_of_bind h'
  obtain ⟨rfl, rfl⟩ := Prod.mk.inj (Except.ok.inj h)
  obtain ⟨rfl, rfl⟩ := Prod.mk.inj (Except.ok.inj h')
  obtain ⟨htree, hservices⟩ := paired_tree hc _ _ _ _ hout hout'
  exact ⟨htree, congrArg NameMap.names hservices⟩

end StoryLang.Check
