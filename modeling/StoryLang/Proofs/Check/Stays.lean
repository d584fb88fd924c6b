/-
Names that stay known.

Checking only ever adds names to a scope, and it closes the scopes that it has
opened. So a name that is known at a place is known wherever checking comes to
from there. Only the body of a function looks no further than itself, without
the feature for it.
-/
import StoryLang.Proofs.Check.Known.Value
import StoryLang.Proofs.Check.Steps

namespace StoryLang

/-- Every binding of the one scope is in the other, with its type and line. -/
def Scope.Kept (a b : Scope) : Prop := ∀ n x, a.get? n = some x → b.get? n = some x

theorem Scope.Kept.refl (a : Scope) : a.Kept a := fun _ _ h => h

theorem Scope.kept_declare {a b : Scope} {x : Binding} (h : a.declare x = .ok b) : a.Kept b := by
  intro n y hn
  rw [get?_declare h]
  split
  · rename_i heq
    unfold declare at h
    rw [← heq, hn] at h
    cases h
  · exact hn

/-- The one scope has every name of the other. -/
def Scope.Within (a b : Scope) : Prop := ∀ n, (a.get? n).isSome = true → (b.get? n).isSome = true

theorem Scope.Within.refl (a : Scope) : a.Within a := fun _ hn => hn

theorem Scope.Kept.within {a b : Scope} (h : a.Kept b) : a.Within b := by
  intro n hn
  obtain ⟨x, hx⟩ := Option.isSome_iff_exists.1 hn
  rw [h n x hx]
  rfl

namespace Scopes

variable {a b c : Scopes} {x y : Binding}

/-- The scopes are as many, and have every binding of the others, one by one. -/
structure Kept (a b : Scopes) : Prop where
  inner : List.Forall₂ Scope.Kept a.inner b.inner
  root : a.root.Kept b.root

theorem Kept.refl (a : Scopes) : a.Kept a := ⟨List.forall₂_same.2 fun s _ => .refl s, .refl a.root⟩

theorem kept_declare (h : a.declare x = .ok b) : a.Kept b := by
  obtain ⟨inner, root⟩ := a
  rcases declare_ok h with ⟨root', rfl, hroot, rfl⟩ | ⟨top, top', rest, rfl, htop, rfl⟩
  · exact ⟨.nil, Scope.kept_declare hroot⟩
  · exact ⟨.cons (Scope.kept_declare htop) (Kept.refl ⟨rest, root⟩).inner, .refl root⟩

/-- The scopes are as many, and have every name of the others, one by one. -/
structure Within (a b : Scopes) : Prop where
  inner : List.Forall₂ Scope.Within a.inner b.inner
  root : a.root.Within b.root

namespace Within

theorem refl (a : Scopes) : a.Within a := ⟨List.forall₂_same.2 fun s _ => .refl s, .refl a.root⟩

theorem trans (h : a.Within b) (h' : b.Within c) : a.Within c := by
  have inner : ∀ {as bs cs : List Scope}, List.Forall₂ Scope.Within as bs →
      List.Forall₂ Scope.Within bs cs → List.Forall₂ Scope.Within as cs := by
    intro as bs cs h
    induction h generalizing cs with
    | nil => exact id
    | cons hs _ ih =>
      rintro (_ | ⟨hs', hrest⟩)
      exact .cons (fun n hn => hs' n (hs n hn)) (ih hrest)
  exact ⟨inner h.inner h'.inner, fun n hn => h'.root n (h.root n hn)⟩

theorem push (h : a.Within b) : a.push.Within b.push := ⟨.cons (.refl _) h.inner, h.root⟩

theorem dropTop (h : a.push.Within b) : a.Within b.dropTop := by
  obtain ⟨inner, root⟩ := b
  obtain ⟨_ | ⟨_, hrest⟩, hroot⟩ := h
  exact ⟨hrest, hroot⟩

theorem length (h : a.Within b) : a.inner.length = b.inner.length := h.inner.length_eq

theorem top (h : a.Within b) : a.top.Within b.top := by
  obtain ⟨as, root⟩ := a
  obtain ⟨bs, root'⟩ := b
  obtain ⟨hinner, hroot⟩ := h
  cases hinner with
  | nil => exact hroot
  | cons htop _ => exact htop

end Within

theorem Kept.within (h : a.Kept b) : a.Within b := ⟨h.inner.imp fun _ _ => Scope.Kept.within, h.root.within⟩

/-- A name is declared if the scope on top does not have it, and that scope has it then. -/
theorem top_declare (h : a.declare x = .ok b) :
    a.top.get? x.name = none ∧ b.top.get? x.name = some x := by
  have step : ∀ {s s' : Scope}, s.declare x = .ok s' → s.get? x.name = none ∧ s'.get? x.name = some x := by
    intro s s' hs
    refine ⟨?_, by simp [Scope.get?_declare hs]⟩
    unfold Scope.declare at hs
    split at hs
    · cases hs
    · assumption
  obtain ⟨inner, root⟩ := a
  rcases declare_ok h with ⟨root', rfl, hroot, rfl⟩ | ⟨top, top', rest, rfl, htop, rfl⟩
  · exact step hroot
  · exact step htop

/-- Otherwise the binding that the scope has is given back. -/
theorem top_declare_error (h : a.declare x = .error y) : a.top.get? x.name = some y := by
  obtain ⟨_ | ⟨top, rest⟩, root⟩ := a
  · cases hr : root.declare x <;> simp [declare, hr, Except.map] at h
    exact Scope.declare_eq_error_iff.1 (h ▸ hr)
  · cases ht : top.declare x <;> simp [declare, ht, Except.map] at h
    exact Scope.declare_eq_error_iff.1 (h ▸ ht)

end Scopes

namespace Check

variable {α β : Type} {a b : Scopes} {e : Env} {n : String} {p q r : Place} {t : Tree}
  {ts us : List Tree}

/-- The scopes after a check have every name of those before. -/
def growing : Steps fun _ => True where
  rel s t := s.scopes.Within t.scopes
  trans h h' := h.trans h'
  reported hscopes _ _ := hscopes ▸ .refl _
  used _ := .refl _
  declared h := (Scopes.kept_declare h).within
  redeclared := .refl _
  closed h := h.dropTop

theorem roots_any : Roots (fun _ => True) fun _ => True :=
  ⟨fun _ _ _ _ => trivial, fun _ _ _ _ _ _ _ _ => trivial⟩

theorem keeps_value (S : Reporting fun _ => True) (e : Env) (t : Tree) : Keeps S (value e t) :=
  (valueKeeps roots_any t trivial).value e

theorem keeps_statement (T : Steps fun _ => True) (e : Env) (t : Tree) : Keeps T.toReporting (statement e t) :=
  (treeKeeps roots_any t trivial).statement e

/-! ## What a scope more or a name more leaves known -/

theorem Env.Knows.mono (h : e.Knows a n) (hw : a.Within b) : e.Knows b n := by
  have hreach : e.reach b = e.reach a := by
    unfold reach Scopes.depth
    rw [hw.length]
  rw [knows_iff] at h ⊢
  rw [hreach]
  rcases h with ⟨s, hs, hn⟩ | hn
  · have hinner := List.forall₂_take (e.reach a) hw.inner
    obtain ⟨i, hi, rfl⟩ := List.getElem_of_mem hs
    have hi' : i < (b.inner.take (e.reach a)).length := hinner.length_eq ▸ hi
    exact .inl ⟨_, List.getElem_mem hi', hinner.get hi hi' n hn⟩
  · exact .inr (hw.root n hn)

/-- What is known at a place. -/
def Place.Knows (p : Place) (n : String) : Prop := p.env.Knows p.scopes n

/-- The body of the function that a place is in starts in a scope that is there. -/
def Place.Opened (p : Place) : Prop := ∀ body, p.env.body = some body → body.floor < p.scopes.depth

/-- The names of the scope on top are known. -/
theorem Place.Opened.knows (h : p.Opened) (hn : (p.scopes.top.get? n).isSome = true) : p.Knows n := by
  obtain ⟨e, inner, root⟩ := p
  rw [Knows, Env.knows_iff]
  cases inner with
  | nil => exact .inr hn
  | cons top rest =>
    have hreach : e.reach ⟨top :: rest, root⟩ ≠ 0 := by
      unfold Env.reach
      cases hb : e.body with
      | none => simp
      | some body =>
        have hfloor : body.floor < rest.length + 1 + 1 := h body hb
        cases e.features.globals <;> (simp [Scopes.depth]; try omega)
    obtain ⟨k, hk⟩ := Nat.exists_eq_succ_of_ne_zero hreach
    exact .inl ⟨top, by simp [hk], hn⟩

/-! ## Blocks that are entered -/

/-- The check opens a scope, and leaves it on top of scopes with every name there was. -/
def Opens (x : Check α) : Prop := ∀ s v s', x s = .ok (v, s') → s.scopes.push.Within s'.scopes

theorem opens_push {f : Unit → Check α} (h : ∀ u, Keeps growing.toReporting (f u)) : Opens (push >>= f) := by
  intro s v s' hx
  obtain ⟨u, t, hpush, hfx⟩ := bind_ok_iff.1 hx
  obtain ⟨-, rfl⟩ := Prod.mk.inj (Except.ok.inj hpush)
  exact h u _ v s' hfx

theorem Keeps.opens {x : Check α} {f : α → Check β} (h : Keeps growing.toReporting x) (hf : ∀ v, Opens (f v)) :
    Opens (x >>= f) := by
  intro s w s' hx
  obtain ⟨v, t, hx, hfx⟩ := bind_ok_iff.1 hx
  exact (Scopes.Within.push (h s v t hx)).trans (hf v t w s' hfx)

/-- What is done in front of a block opens the scope of the block. -/
theorem opens_entering (e : Env) (t : Tree) : Opens (entering e t) := by
  have opened : ∀ {body : Option Body}, Opens (push >>= fun _ => pure body) :=
    opens_push fun _ => keeps_pure
  have declares : ∀ {line names tys} {body : Option Body},
      Opens (push >>= fun _ => declareAll line names tys >>= fun _ => pure body) :=
    opens_push fun _ => keeps_declareAll.bind fun _ => keeps_pure
  unfold entering
  split
  · exact (keeps_value growing.toReporting e _).opens fun _ => keeps_declareAll.opens fun _ => opened
  · exact (keeps_value growing.toReporting e _).opens fun _ => keeps_declareAll.opens fun _ => opened
  · refine (keeps_nodeValue fun p _ => keeps_value growing.toReporting e p).opens fun _ => ?_
    exact (reports_iteratedTypes (r := none)).keeps.opens fun _ => declares
  · exact declares
  · refine opens_push fun _ => ?_
    split
    · exact keeps_pure
    · exact reports_topNumber.keeping fun _ => keeps_declareAll.bind fun _ => keeps_pure
  · rename_i line ps
    refine ((valueKeeps roots_any (.node .whenBlock line ps) trivial).rows.arguments e).opens fun _ => ?_
    dsimp only
    split
    · exact opened
    · exact (keeps_listening trivial).opens fun _ => declares
  · exact opened

/-- What the check gives is as `post` says. -/
def Gives (post : α → Prop) (x : Check α) : Prop := ∀ s v s', x s = .ok (v, s') → post v

theorem gives_pure {post : α → Prop} {v : α} (h : post v) : Gives post (pure v) := by
  intro s w s' hx
  obtain ⟨rfl, -⟩ := Prod.mk.inj (Except.ok.inj hx)
  exact h

theorem Gives.bind {x : Check α} {f : α → Check β} {mid : α → Prop} {post : β → Prop}
    (h : Gives mid x) (hf : ∀ v, mid v → Gives post (f v)) : Gives post (x >>= f) := by
  intro s w s' hx
  obtain ⟨v, t, hx, hfx⟩ := bind_ok_iff.1 hx
  exact hf v (h s v t hx) t w s' hfx

/-- Whatever a check gives, what comes after it may give the same. -/
theorem Gives.after {x : Check α} {f : α → Check β} {post : β → Prop} (hf : ∀ v, Gives post (f v)) :
    Gives post (x >>= f) :=
  Gives.bind (fun _ _ _ _ => trivial) fun v _ => hf v

/-- A block is in the function that its statement is in, unless the statement declares one. -/
theorem gives_entering (h : t.isA .functionBlock = false) : Gives (· = e.body) (entering e t) := by
  have opened : Gives (· = e.body) (push >>= fun _ => pure e.body) := .after fun _ => gives_pure rfl
  unfold entering
  split
  · exact .after fun _ => .after fun _ => opened
  · exact .after fun _ => .after fun _ => opened
  · exact .after fun _ => .after fun _ => .after fun _ => .after fun _ => gives_pure rfl
  · exact .after fun _ => .after fun _ => gives_pure rfl
  · cases h
  · refine .after fun out => ?_
    dsimp only
    split
    · exact opened
    · exact .after fun _ => .after fun _ => .after fun _ => gives_pure rfl
  · exact opened

/-- The body of a function is in the function, which starts in the scope that is opened for it. -/
theorem entering_ofFunction {line : Option Coord} {ps : List Tree} {s s' : State} {body : Option Body}
    (h : entering e (.node .functionBlock line ps) s = .ok (body, s')) :
    body = e.body ∨ ∃ b, body = some b ∧ b.floor = s.scopes.depth := by
  simp only [entering] at h
  obtain ⟨u, t, hpush, h⟩ := bind_ok_iff.1 h
  obtain ⟨-, rfl⟩ := Prod.mk.inj (Except.ok.inj hpush)
  cases hname : nameOf? ps with
  | none =>
    rw [hname] at h
    obtain ⟨rfl, -⟩ := Prod.mk.inj (Except.ok.inj h)
    exact .inl rfl
  | some name =>
    rw [hname] at h
    obtain ⟨floor, t', hfloor, h⟩ := bind_ok_iff.1 h
    obtain ⟨rfl, rfl⟩ := Prod.mk.inj (Except.ok.inj hfloor)
    obtain ⟨_, t, -, h⟩ := bind_ok_iff.1 h
    obtain ⟨rfl, -⟩ := Prod.mk.inj (Except.ok.inj h)
    exact .inr ⟨_, rfl, by simp [Scopes.push, Scopes.depth]⟩

/-! ## Places that checking comes to -/

namespace Place

/-- The block of a statement sees what is around the statement. -/
def SeenIn (p : Place) (t : Tree) : Prop :=
  t.isA .functionBlock = true → p.env.features.globals = true

theorem Passes.within (h : p.Passes t q) : p.scopes.Within q.scopes := by
  obtain ⟨s, t', s', hs, hx, rfl⟩ := h
  exact hs ▸ keeps_statement growing p.env t s t' s' hx

theorem Passes.env (h : p.Passes t q) : q.env = p.env := by
  obtain ⟨s, t', s', -, -, rfl⟩ := h
  rfl

theorem Passes.opened (h : p.Passes t q) (ho : p.Opened) : q.Opened := by
  intro body hbody
  rw [h.env] at hbody
  have hlength := h.within.length
  have hfloor := ho body hbody
  unfold Scopes.depth at hfloor ⊢
  omega

theorem Passes.knows (h : p.Passes t q) (hn : p.Knows n) : q.Knows n := by
  unfold Knows
  rw [h.env]
  exact hn.mono h.within

theorem Enters.within (h : p.Enters t q) : p.scopes.push.Within q.scopes := by
  obtain ⟨s, body, s', hs, hx, rfl⟩ := h
  exact hs ▸ opens_entering p.env t s body s' hx

/-- A block is in the function around it, or in one that starts with the block. -/
theorem Enters.body (h : p.Enters t q) : q.env.body = p.env.body ∨
    t.isA .functionBlock = true ∧ ∃ b, q.env.body = some b ∧ b.floor = p.scopes.depth := by
  obtain ⟨s, body, s', hs, hx, rfl⟩ := h
  cases hf : t.isA .functionBlock with
  | false => exact .inl (gives_entering hf s body s' hx)
  | true =>
    obtain ⟨line, ps, rfl⟩ : ∃ line ps, t = .node .functionBlock line ps := by
      cases t <;> simp_all [Tree.isA, Tree.rule?]
    exact (entering_ofFunction hx).imp_right fun hb => ⟨rfl, hs ▸ hb⟩

theorem Enters.opened (h : p.Enters t q) (ho : p.Opened) : q.Opened := by
  intro b hb
  have hlength := h.within.length
  have hfloor : b.floor ≤ p.scopes.depth := by
    rcases h.body with hbody | ⟨-, c, hc, hfloor⟩
    · exact Nat.le_of_lt (ho b (hbody ▸ hb))
    · obtain rfl := Option.some.inj (hc.symm.trans hb)
      exact Nat.le_of_eq hfloor
  simp only [Scopes.push, List.length_cons] at hlength
  unfold Scopes.depth at hfloor ⊢
  omega

theorem Enters.knows (h : p.Enters t q) (hs : p.SeenIn t) (hn : p.Knows n) : q.Knows n := by
  have hbody := h.body
  have hwithin := h.within
  obtain ⟨s, body, s', -, -, rfl⟩ := h
  rcases hbody with hbody | ⟨hf, -⟩
  · obtain rfl : body = p.env.body := hbody
    exact hn.push.mono hwithin
  · exact ((Env.knows_globals (hs hf) body).2 hn).push.mono hwithin

end Place

/-- Checking some statements from `p` comes to the statements `us` of a list at `q`, where of the
blocks on the way only those are gone `into` that are said. -/
inductive Reaches (into : Place → Tree → Prop) : Place → List Tree → Place → List Tree → Prop where
  | here {p : Place} {ts : List Tree} : Reaches into p ts p ts
  | later {p q r : Place} {t : Tree} {ts us : List Tree} (passes : p.Passes t q)
      (rest : Reaches into q ts r us) : Reaches into p (t :: ts) r us
  | inside {p q r : Place} {t : Tree} {ts us body : List Tree} {line : Option Coord}
      (block : .node .block line body ∈ t.parts) (goes : into p t) (enters : p.Enters t q) (rest : Reaches into q body r us) : Reaches into p (t :: ts) r us
  | branch {p r : Place} {t b : Tree} {ts us : List Tree} (part : b ∈ t.parts)
      (isBranch : b.isBranch = true) (rest : Reaches into p [b] r us) : Reaches into p (t :: ts) r us

theorem Reaches.opened {into : Place → Tree → Prop} (h : Reaches into p ts q us) (ho : p.Opened) :
    q.Opened := by
  induction h with
  | here => exact ho
  | later passes _ ih => exact ih (passes.opened ho)
  | inside _ _ enters _ ih => exact ih (enters.opened ho)
  | branch _ _ _ ih => exact ih ho

/-- What is known at a place is known wherever checking comes to from there, if it is seen there. -/
theorem Reaches.knows (h : Reaches Place.SeenIn p ts q us) (hn : p.Knows n) : q.Knows n := by
  induction h with
  | here => exact hn
  | later passes _ ih => exact ih (passes.knows hn)
  | inside _ goes enters _ ih => exact ih (enters.knows goes hn)
  | branch _ _ _ ih => exact ih hn

end Check

end StoryLang
