/-
The places of a story, and what is known there when it is checked.

Values leave the scopes as they are, so that all of a statement outside its
blocks is checked with the scopes it is come to with. Two checks of the same
statements with different registries come to the same statements, though to
some perhaps with other types for the same names. `Meets` follows both; and
`Accord` says that wherever they come, they take each call without a dot in the
same way, since its name is a variable that holds the output of a service
either in both or in none.
-/
import StoryLang.Check.Statement
import StoryLang.Proofs.Tree.Names

namespace StoryLang

namespace Tree

/-- The name that a call is of, if there is no dot behind the name. -/
def calledName? : Tree → Option Token
  | node .serviceCall _ ps =>
    match ps.find? (·.isA .path) with
    | none => none
    | some path => if path.parts.any (·.isA .pathFragment) then none else path.firstToken?
  | _ => none

def isBranch (t : Tree) : Bool := t.rule?.any Rule.isBranch

/-- Whether a part of a statement has statements of its own. -/
def isClause (t : Tree) : Bool := t.isA .block || t.isBranch

/-- A statement or branch with the nodes in it that are in none of its blocks
and branches. -/
def ownNodes (t : Tree) : List Tree := t :: (t.parts.filter (!·.isClause)).flatMap walk

/-- Whether the first statement of a story, outside its blocks, is the only one to call
something by a name without a dot. -/
def callsFirst (t : Tree) : Bool :=
  match t.parts with
  | [] => true
  | first :: rest =>
    (walkAll (first.parts.filter isClause ++ rest)).all (·.calledName?.isNone)

end Tree

/-- Whether a type is that of the output of a service, to which commands can be given. -/
def Ty.isOutput : Ty → Bool
  | service _ _ => true
  | _ => false

theorem Ty.isOutput_iff {ty : Ty} : ty.isOutput = true ↔ ∃ s c, ty = .service s c := by
  cases ty <;> simp [isOutput]

namespace Check

/-- What is known of a name with some scopes. -/
def Env.found (e : Env) (scopes : Scopes) (name : String) : Option Binding :=
  match e.body with
  | some body =>
    if e.features.globals then scopes.get? name else scopes.getFrom? body.floor name
  | none => scopes.get? name

theorem lookup_eq (e : Env) (name : String) (s : State) :
    lookup e name s = .ok (e.found s.scopes name, s) := rfl

/-- What is done before the block of a statement or branch is checked. Gives the
function that the block is in. -/
def entering (e : Env) (t : Tree) : Check (Option Body) := do
  match t with
  | .node .serviceCall _ _ | .node .mutation _ _ =>
    let (t, ty) ← value e t
    declareOutput t ty
    push
    return e.body
  | .node .foreachBlock _ ps =>
    let (source, ty) ← nodeValue e 0 ps
    let names := outputNames ps
    let tys ← iteratedTypes ty names.length (source.bind (·.position?))
    push
    declareAll t.line? names tys
    return e.body
  | .node .catchBlock _ _ =>
    push
    declareOutput t .anyObject
    return e.body
  | .node .functionBlock _ ps =>
    push
    match nameOf? ps with
    | none => return e.body
    | some name =>
      let body : Body := ⟨name.literal, spelledOrAny (returnTypes ps), ← topNumber⟩
      let parameters := (ps.filter (·.isA .parameter)).filterMap parameter?
      declareAll t.line? (parameters.map (·.1)) (parameters.map (·.2))
      return some body
  | .node .whenBlock _ ps =>
    let (_, supplied) ← argumentsOf e ps
    match (ps.find? (·.isA .path)).bind Tree.firstToken? with
    | none =>
      push
      return e.body
    | some root =>
      let ty ← listening e root (nameOf? ps) supplied
      push
      declareOutput t ty
      return e.body
  | _ =>
    push
    return e.body

/-- Where something is checked: what is known before, and the names. -/
structure Place where
  env : Env
  scopes : Scopes

namespace Place

/-- Whether a name is a variable that holds the output of a service. -/
def holdsOutput (p : Place) (name : String) : Bool :=
  ((p.env.found p.scopes name).map Binding.ty).any Ty.isOutput

/-- Checking a statement at `p` leads to `q`. -/
def Passes (p : Place) (t : Tree) (q : Place) : Prop :=
  ∃ s t' s', s.scopes = p.scopes ∧ statement p.env t s = .ok (t', s') ∧ q = ⟨p.env, s'.scopes⟩

/-- The block of a statement or branch that is checked at `p` starts at `q`. -/
def Enters (p : Place) (t : Tree) (q : Place) : Prop :=
  ∃ s body s', s.scopes = p.scopes ∧ entering p.env t s = .ok (body, s') ∧
    q = ⟨{ p.env with body }, s'.scopes⟩

end Place

/-- Two checks of some statements, one from `p` and one from `p'`, come to the
statement or branch `u`, one at `q` and one at `q'`. -/
inductive Meets : Place → Place → List Tree → Place → Place → Tree → Prop where
  | here {p p' t ts} : Meets p p' (t :: ts) p p' t
  | later {p p' q q' r r' t ts u} (passes : p.Passes t q) (passes' : p'.Passes t q')
      (rest : Meets q q' ts r r' u) : Meets p p' (t :: ts) r r' u
  | inside {p p' q q' r r' t ts u line body} (block : .node .block line body ∈ t.parts)
      (enters : p.Enters t q) (enters' : p'.Enters t q') (rest : Meets q q' body r r' u) :
      Meets p p' (t :: ts) r r' u
  | branch {p p' r r' t ts u b} (part : b ∈ t.parts) (isBranch : b.isBranch = true)
      (rest : Meets p p' [b] r r' u) : Meets p p' (t :: ts) r r' u

/-- The names of the calls among some nodes are variables that hold the output of
a service at both places or at none. -/
def Agree (p p' : Place) (nodes : List Tree) : Prop :=
  ∀ c ∈ nodes, ∀ name ∈ c.calledName?, p.holdsOutput name.literal = p'.holdsOutput name.literal

/-- Two checks of some statements take every call in them in the same way. -/
def Accord (p p' : Place) (ts : List Tree) : Prop :=
  ∀ q q' u, Meets p p' ts q q' u → Agree q q' u.ownNodes

/-- With two registries, checking a story takes every call in the same way. -/
def CallsAlike (features : Features) (registry registry' : Option Registry) (root : Scope)
    (t : Tree) : Prop :=
  ∀ functions s,
    signatures t { scopes := .ofRoot root, reports := [], services := .empty } =
      .ok (functions, s) →
    Accord ⟨{ features, registry, functions, body := none }, (Scopes.ofRoot root).push⟩
      ⟨{ features, registry := registry', functions, body := none }, (Scopes.ofRoot root).push⟩
      t.parts

/-! ## Calls that are met -/

variable {p p' q q' : Place} {t u b : Tree} {ts us body : List Tree} {line : Option Coord}

theorem Agree.mono (h : Agree p p' ts) (hs : us ⊆ ts) : Agree p p' us :=
  fun c hc => h c (hs hc)

/-- A check of one statement comes only to what a check of more statements comes to. -/
theorem Meets.ofHead (h : Meets p p' [t] q q' u) : Meets p p' (t :: ts) q q' u := by
  cases h with
  | here => exact .here
  | later _ _ rest => cases rest
  | inside block enters enters' rest => exact .inside block enters enters' rest
  | branch part isBranch rest => exact .branch part isBranch rest

namespace Accord

theorem head (h : Accord p p' (t :: ts)) : Accord p p' [t] :=
  fun q q' u hm => h q q' u hm.ofHead

theorem own (h : Accord p p' (t :: ts)) : Agree p p' t.ownNodes := h p p' t .here

theorem later (h : Accord p p' (t :: ts)) (hp : p.Passes t q) (hp' : p'.Passes t q') :
    Accord q q' ts :=
  fun r r' u hm => h r r' u (.later hp hp' hm)

theorem inside (h : Accord p p' (t :: ts)) (hb : .node .block line body ∈ t.parts)
    (he : p.Enters t q) (he' : p'.Enters t q') : Accord q q' body :=
  fun r r' u hm => h r r' u (.inside hb he he' hm)

theorem branch (h : Accord p p' (t :: ts)) (hb : b ∈ t.parts) (hr : b.isBranch = true) :
    Accord p p' [b] :=
  fun r r' u hm => h r r' u (.branch hb hr hm)

end Accord

/-- A part of a statement that is neither a block nor a branch is its own. -/
theorem Agree.part (h : Agree p p' t.ownNodes) (hu : u ∈ t.parts) (hc : u.isClause = false) :
    Agree p p' u.walk := by
  refine h.mono fun c hw => List.mem_cons_of_mem _ (List.mem_flatMap.2 ⟨u, ?_, hw⟩)
  simp [hu, hc]

/-- What a statement or branch calls is called in its tree. -/
theorem calledName?_ownNodes {c : Tree} {name : Token} (hc : c ∈ t.ownNodes)
    (hn : name ∈ c.calledName?) : c ∈ t.walk := by
  cases t with
  | token u =>
    obtain rfl : c = .token u := by simpa [Tree.ownNodes, Tree.parts] using hc
    cases hn
  | node r l ps =>
    rw [Tree.walk, Tree.walkAll_eq]
    simp only [Tree.ownNodes, Tree.parts, List.mem_cons, List.mem_flatMap, List.mem_filter] at hc ⊢
    exact hc.imp_right (Exists.imp fun _ => And.imp_left And.left)

/-- A statement or branch that is come to is in the tree of one of the statements. -/
theorem Meets.walk_subset (h : Meets p p' ts q q' u) : u.walk ⊆ Tree.walkAll ts := by
  have inner : ∀ {t b : Tree}, b ∈ t.parts → b.walk ⊆ t.walk := by
    intro t b hb c hc
    cases t with
    | token u => cases hb
    | node r l ps =>
      rw [Tree.walk, Tree.walkAll_eq]
      exact List.mem_cons_of_mem _ (List.mem_flatMap.2 ⟨b, hb, hc⟩)
  induction h with
  | here =>
    rw [Tree.walkAll]
    exact List.subset_append_left _ _
  | later _ _ _ ih =>
    rw [Tree.walkAll]
    exact List.Subset.trans ih (List.subset_append_right _ _)
  | inside block _ _ _ ih =>
    rw [Tree.walkAll]
    have hbody := List.Subset.trans (List.subset_cons_self _ _) (inner block)
    exact List.Subset.trans ih (List.Subset.trans hbody (List.subset_append_left _ _))
  | branch part _ _ ih =>
    rw [Tree.walkAll]
    refine List.Subset.trans ih (List.Subset.trans ?_ (List.subset_append_left _ _))
    simpa [Tree.walkAll] using inner part

/-- Checks that start from the same scopes take the calls of the first statement in the
same way, so that they are in accord if there are no others. -/
theorem CallsAlike.ofFirst {features : Features} {r r' : Option Registry} {root : Scope}
    (h : u.callsFirst = true) : CallsAlike features r r' root u := by
  intro functions s _ q q' v hm c hcv name hn
  obtain ⟨t, ts, ht⟩ : ∃ t ts, u.parts = t :: ts := by
    cases hu : u.parts with
    | nil =>
      rw [hu] at hm
      cases hm
    | cons t ts => exact ⟨t, ts, rfl⟩
  rw [ht] at hm
  simp only [Tree.callsFirst, ht, List.all_eq_true, Option.isNone_iff_eq_none] at h
  have called : ∀ {us : List Tree}, us ⊆ Tree.walkAll (t.parts.filter Tree.isClause ++ ts) →
      v.walk ⊆ us → False := by
    intro us hus hv
    rw [h c (hus (hv (calledName?_ownNodes hcv hn)))] at hn
    cases hn
  have clause : ∀ {b : Tree}, b ∈ t.parts → b.isClause = true →
      b.walk ⊆ Tree.walkAll (t.parts.filter Tree.isClause ++ ts) := by
    intro b hb hclause d hd
    rw [Tree.walkAll_eq]
    exact List.mem_flatMap.2 ⟨b, by simp [hb, hclause], hd⟩
  cases hm with
  | here => rfl
  | later _ _ rest =>
    refine (called ?_ rest.walk_subset).elim
    rw [Tree.walkAll_append]
    exact List.subset_append_right _ _
  | inside block _ _ rest =>
    refine (called ?_ rest.walk_subset).elim
    exact List.Subset.trans (List.subset_cons_self _ _) (clause block rfl)
  | branch part isBranch rest =>
    refine (called ?_ rest.walk_subset).elim
    simpa [Tree.walkAll] using clause part (by simp [Tree.isClause, isBranch])

end Check

end StoryLang
