/-
Stories that say the same are checked with the same result.

The statements are followed side by side. They declare the same names with
the same types, so that the same is known wherever they come, and trees that
say the same are given back.
-/
import StoryLang.Check.Statement
import StoryLang.Proofs.Check.Known.Value
import StoryLang.Proofs.Respell.Typing

namespace StoryLang.Check

open StoryLang.Tree (Like LikeAll SameText Worded Heads)

variable {α : Type} {e : Env} {t t' : Tree} {ps ps' : List Tree} {P : Token → Prop} {g : Grammar}
  {r : Rule} {line : Option Coord}

/-! ## What statements declare -/

theorem line_same (h : t.Same t') : t'.line? = t.line? := Like.line? h Token.agrees_same

theorem names_same {us us' : List Token} (h : List.Forall₂ Token.Same us us') :
    List.Forall₂ SameText (us.filter (·.kind = .name)) (us'.filter (·.kind = .name)) := by
  induction h with
  | nil => exact .nil
  | @cons u u' _ _ hu _ ih =>
    by_cases hk : u.kind = .name
    · rw [List.filter_cons_of_pos (by simp [hk]), List.filter_cons_of_pos (by simp [hu.kind, hk])]
      exact .cons (sameText_of_name hu hk) ih
    · rwa [List.filter_cons_of_neg (by simp [hk]), List.filter_cons_of_neg (by simp [hu.kind, hk])]

theorem outputNames_same (h : LikeAll Token.Same Worded ps ps') :
    List.Forall₂ SameText (outputNames ps) (outputNames ps') := by
  unfold outputNames
  rcases find_same h .output with ⟨hn, hn'⟩ | ⟨o, o', hn, hn', -, ho⟩
  · simp only [hn, hn']
    exact .nil
  · simp only [hn, hn']
    exact names_same (LikeAll.tokens ho.parts)

theorem finds_declareAll (line : Option Coord) {names names' : List Token}
    (h : List.Forall₂ SameText names names') (tys : List Ty) :
    Finds Eq (declareAll line names tys) (declareAll line names' tys) := by
  induction h generalizing tys with
  | nil => exact .pure rfl
  | @cons u u' _ _ hu _ ih =>
    have hu : u'.literal = u.literal := hu
    unfold declareAll
    rw [hu]
    exact (finds_declare _ _ _ _ _).bindSame fun _ => ih _

theorem finds_declareOutput (h : t.Same t') (ty : Ty) :
    Finds Eq (declareOutput t ty) (declareOutput t' ty) := by
  unfold declareOutput
  rw [line_same h]
  exact finds_declareAll _ (outputNames_same h.parts) _

/-! ## Values in statements -/

theorem finds_value (hf : Formed P g .plain t) (h : t.Same t') : Finds Valued (value e t) (value e t') :=
  (value_finds hf).value _ h

/-- A value that is put back, if there is one, and its type. -/
structure NodeValued (out out' : Option Tree × Ty) : Prop where
  tree : Option.Rel Tree.Same out.1 out'.1
  ty : out'.2 = out.2

theorem finds_nodeValue (hf : ∀ p ∈ ps, Formed P g .plain p) (h : LikeAll Token.Same Worded ps ps')
    (i : Nat) : Finds NodeValued (nodeValue e i ps) (nodeValue e i ps') := by
  have hnode := rel_getElem? (rel_filter h Like.isNode) i
  unfold nodeValue
  cases hn : (ps.filter Tree.isNode)[i]? with
  | none =>
    rw [hn] at hnode
    generalize (ps'.filter Tree.isNode)[i]? = node' at hnode
    cases hnode
    exact .pure ⟨.none, rfl⟩
  | some t =>
    have ht : t ∈ ps := List.mem_of_mem_filter (List.mem_of_getElem? hn)
    rw [hn] at hnode
    generalize (ps'.filter Tree.isNode)[i]? = node' at hnode
    cases hnode with
    | some hu => exact (finds_value (hf t ht) hu).bind fun _ _ ho => .pure ⟨.some ho.tree, ho.ty⟩

theorem finds_condition (hf : Formed P g .plain t) (h : t.Same t') :
    Finds Tree.Same (condition e t) (condition e t') := by
  unfold condition
  refine (finds_value hf h).bind ?_
  rintro ⟨t, ty⟩ ⟨t', ty'⟩ ho
  obtain rfl : ty' = ty := ho.ty
  exact finds_reportIf _ _ _ _ _ (.pure ho.tree)

theorem finds_assignable (target source : Ty) (place place' : Position) :
    Finds Eq (assignable target source place) (assignable target source place') := by
  unfold assignable
  exact .ite (finds_report _ _ _ _ _) (.pure rfl)

theorem find_putNode {target : Tree} (ht : target.isNode = true) (new : Option Tree) :
    (Tree.putNode new 1 (target :: ps)).find? Tree.isNode = some target := by
  cases new <;> simp [Tree.putNode, ht]

theorem finds_assignment {line : Option Coord} (hf : ∀ p ∈ ps, Formed P g .plain p)
    (h : LikeAll Token.Same Worded ps ps') (hc : Content P g .plain .assignment ps) :
    Finds (LikeAll Token.Same Worded) (assignment e (.node .assignment line ps) ps)
      (assignment e (.node .assignment line ps') ps') := by
  have hline := line_same (.node (.other ⟨rfl, by simp⟩ _ _) h :
    (Tree.node .assignment line ps).Same (.node .assignment line ps'))
  unfold assignment
  refine (finds_nodeValue hf h 1).bind ?_
  rintro ⟨source, ty⟩ ⟨source', ty'⟩ ho
  obtain rfl : ty' = ty := ho.ty
  have hparts := LikeAll.putNode h ho.tree 1
  cases hc with
  | @assignment _ target _ _ path _ =>
    obtain ⟨target', rest', htarget, -, rfl⟩ := List.forall₂_cons_left_iff.1 h
    have hnode : target.isNode = true := by
      obtain ⟨_, _, rfl⟩ := Tree.isA_iff.1 path
      rfl
    obtain ⟨u, u', hu, hu', hsame⟩ := firstToken_of_isA htarget path rfl
    have hsame : u'.literal = u.literal := hsame
    have hdot := rel_any htarget.parts (Like.isA .pathFragment)
    dsimp only at hparts ⊢
    rw [find_putNode hnode, find_putNode ((Like.isNode _ _ htarget).trans hnode)]
    simp only [hu, hu', hsame, hdot, hline]
    split
    · refine (finds_value (hf _ List.mem_cons_self) htarget).bind ?_
      rintro ⟨path, ty⟩ ⟨path', ty'⟩ hv
      obtain rfl : ty' = ty := hv.ty
      exact (finds_assignable _ _ _ _).bindSame fun _ =>
        .pure (LikeAll.putNode hparts (.some hv.tree) 0)
    · refine (finds_lookup _).bindSame fun found => ?_
      split
      · exact (finds_assignable _ _ _ _).bindSame fun _ => .pure hparts
      · exact (finds_declare _ _ _ _ _).bindSame fun _ => .pure hparts

theorem finds_iteratedTypes (source : Ty) (names : Nat) (place place' : Option Position) :
    Finds Eq (iteratedTypes source names place) (iteratedTypes source names place') := by
  have few : ∀ tys : List Ty, Finds Eq
      (if 2 < names then report .tooManyNames [source.text, "2"] place >>= fun _ => pure tys else pure tys)
      (if 2 < names then report .tooManyNames [source.text, "2"] place' >>= fun _ => pure tys else pure tys) :=
    fun tys => finds_reportIf _ _ _ _ _ (.pure rfl)
  unfold iteratedTypes
  cases source.iterated? names with
  | some tys => exact few tys
  | none => exact (finds_report _ _ _ _ _).bindSame fun _ => few _

/-! ## Functions -/

/-- Names with the same text and the same type. -/
structure SameParameter (p p' : Token × Ty) : Prop where
  name : SameText p.1 p'.1
  ty : p'.2 = p.2

theorem parameter_same (h : t.Same t') (ht : t.isA .parameter = true) :
    Option.Rel SameParameter (parameter? t) (parameter? t') := by
  obtain ⟨u, u', hu, hu', hsame⟩ := firstToken_of_isA h ht rfl
  unfold parameter?
  rw [hu, hu']
  exact .some ⟨hsame, spelledOrAny_same (h.find? .types) fun t ht => List.find?_some ht⟩

theorem parameters_same (h : LikeAll Token.Same Worded ps ps') :
    List.Forall₂ SameParameter ((ps.filter (·.isA .parameter)).filterMap parameter?)
      ((ps'.filter (·.isA .parameter)).filterMap parameter?) := by
  induction h with
  | nil => exact .nil
  | @cons p p' _ _ hp _ ih =>
    by_cases hr : p.isA .parameter = true
    · rw [List.filter_cons_of_pos hr, List.filter_cons_of_pos (by rw [Like.isA _ _ _ hp, hr]),
        List.filterMap_cons, List.filterMap_cons]
      have hparameter := parameter_same hp hr
      generalize parameter? p = a, parameter? p' = a' at hparameter
      cases hparameter with
      | none => exact ih
      | some ha => exact .cons ha ih
    · rwa [List.filter_cons_of_neg hr, List.filter_cons_of_neg (by rwa [Like.isA _ _ _ hp])]

theorem parameterNames_same {given given' : List (Token × Ty)}
    (h : List.Forall₂ SameParameter given given') :
    List.Forall₂ SameText (given.map (·.1)) (given'.map (·.1)) :=
  List.forall₂_map_left_iff.2 (List.forall₂_map_right_iff.2 (h.imp fun _ _ ha => ha.name))

theorem parameterTypes_same {given given' : List (Token × Ty)}
    (h : List.Forall₂ SameParameter given given') : given'.map (·.2) = given.map (·.2) := by
  induction h with
  | nil => rfl
  | cons ha _ ih => rw [List.map_cons, List.map_cons, ha.ty, ih]

theorem returnTypes_same (h : LikeAll Token.Same Worded ps ps') :
    Option.Rel Tree.Same (returnTypes ps) (returnTypes ps') := by
  unfold returnTypes
  rcases find_same h .returns with ⟨hn, hn'⟩ | ⟨r, r', hn, hn', -, hr⟩
  · rw [hn, hn']
    exact .none
  · rw [hn, hn']
    exact hr.find? .types

theorem isA_returnTypes : ∀ t ∈ returnTypes ps, t.isA .types = true := by
  intro t ht
  obtain ⟨r, -, hr⟩ := Option.bind_eq_some_iff.1 ht
  exact List.find?_some hr

theorem finds_listening {root root' : Token} {event event' : Option Token}
    {given given' : List Supplied} (hroot : SameText root root') (he : Option.Rel SameText event event')
    (h : List.Forall₂ Supplied.Same given given') :
    Finds Eq (listening e root event given) (listening e root' event' given') := by
  have hroot : root'.literal = root.literal := hroot
  unfold listening
  rw [hroot]
  refine (finds_lookup _).bindSame fun found => ?_
  split
  · cases he with
    | none => exact .pure rfl
    | some hu => exact finds_eventCall _ _ hu h
  · exact .pure rfl
  · exact finds_any _ _ _ _ _
  · refine (finds_useService _).bindSame fun _ => ?_
    cases e.registry with
    | none => exact .pure rfl
    | some registry =>
      exact (finds_service registry _).bindSame fun known => finds_reportIf _ _ _ _ _ (.pure rfl)

theorem finds_returned (hf : ∀ p ∈ ps, Formed P g .plain p) (h : LikeAll Token.Same Worded ps ps') :
    Finds (LikeAll Token.Same Worded) (returned e ps) (returned e ps') := by
  unfold returned
  refine (finds_nodeValue hf h 0).bind ?_
  rintro ⟨given, ty⟩ ⟨given', ty'⟩ ho
  obtain rfl : ty' = ty := ho.ty
  have whole : Finds (LikeAll Token.Same Worded) (pure (Tree.putNode given 0 ps))
      (pure (Tree.putNode given' 0 ps')) := .pure (LikeAll.putNode h ho.tree 0)
  have hgiven := ho.tree
  dsimp only at hgiven ⊢
  cases hgiven with
  | none => exact whole
  | some hu =>
    cases e.body with
    | none => exact whole
    | some body => exact finds_reportIf _ _ _ _ _ whole

/-! ## What can be reached -/

/-- Neither or both can be reached. -/
inductive Flow.Same : Flow → Flow → Prop where
  | open : Flow.Same .open .open
  | stopped {keyword keyword' : String} : Flow.Same (.stopped keyword) (.stopped keyword')
  | reported : Flow.Same .reported .reported

theorem after_same {flow flow' : Flow} (h : flow.Same flow') (ht : t.Same t') :
    (flow.after t).Same (flow'.after t') := by
  have hfirst := ht.firstToken?
  unfold Flow.after
  rw [Like.rule? ht]
  generalize t.firstToken? = first, t'.firstToken? = first' at hfirst ⊢
  cases h with
  | «open» =>
    split <;> first
      | exact .open
      | (cases hfirst with
         | none => exact .open
         | some => exact .stopped)
  | stopped => exact .stopped
  | reported => exact .reported

theorem finds_enter {flow flow' : Flow} (h : flow.Same flow') (t t' : Tree) :
    Finds Flow.Same (flow.enter t) (flow'.enter t') := by
  cases h with
  | «open» => exact .pure .open
  | stopped => exact (finds_report _ _ _ _ _).bindSame fun _ => .pure .reported
  | reported => exact .pure .reported

/-! ## Blocks -/

/-- Checks of rows of parts find out the same, whichever way they are followed. -/
structure BlockFinds (ps ps' : List Tree) : Prop where
  statements : ∀ e {flow flow' : Flow}, flow.Same flow' →
    Finds (LikeAll Token.Same Worded) (statements e flow ps) (statements e flow' ps')
  bodyOf : ∀ e, Finds (Option.Rel Tree.Same) (bodyOf e ps) (bodyOf e ps')
  blockOf : ∀ e, Finds (Option.Rel Tree.Same) (blockOf e ps) (blockOf e ps')
  branches : ∀ e, Finds (LikeAll Token.Same Worded) (branches e ps) (branches e ps')
  branch : ∀ e, Finds (LikeAll Token.Same Worded) (branch e ps) (branch e ps')
  handlers : ∀ e, Finds (LikeAll Token.Same Worded) (handlers e ps) (handlers e ps')

/-- Checks of a statement and of one that says the same find out the same. -/
structure StatementFinds (t : Tree) : Prop where
  statement : ∀ e t', t.Same t' → Finds Tree.Same (statement e t) (statement e t')
  parts : ∀ ps', LikeAll Token.Same Worded t.parts ps' → BlockFinds t.parts ps'

theorem BlockFinds.nil : BlockFinds [] [] where
  statements _ _ _ _ := .pure .nil
  bodyOf _ := .pure .none
  blockOf _ := .pure .none
  branches _ := .pure .nil
  branch _ := .pure .nil
  handlers _ := .pure .nil

theorem BlockFinds.token {u u' : Token} (hu : Token.Same u u') (h : BlockFinds ps ps') :
    BlockFinds (.token u :: ps) (.token u' :: ps') where
  statements e _ _ hflow := by
    unfold Check.statements
    exact (h.statements e hflow).bind fun _ _ hs => .pure (.cons (.token hu) hs)
  bodyOf e := by
    unfold Check.bodyOf
    exact h.bodyOf e
  blockOf e := by
    unfold Check.blockOf
    exact h.blockOf e
  branches e := by
    unfold Check.branches
    exact (h.branches e).bind fun _ _ hs => .pure (.cons (.token hu) hs)
  branch e := by
    unfold Check.branch
    exact (h.branch e).bind fun _ _ hs => .pure (.cons (.token hu) hs)
  handlers e := by
    unfold Check.handlers
    exact (h.handlers e).bind fun _ _ hs => .pure (.cons (.token hu) hs)

/-- A node of a rule whose text is not read. -/
theorem same_node (hr : r.isNamed = false ∧ r ≠ .string) (h : LikeAll Token.Same Worded ps ps') :
    (Tree.node r line ps).Same (.node r line ps') :=
  .node (.other hr _ _) h

/-- The statements of a block in a scope of its own, before the rest of a row. -/
theorem BlockFinds.inside {qs qs' : List Tree} (hin : BlockFinds qs qs')
    {rest rest' : Check (List Tree)} (h : Finds (LikeAll Token.Same Worded) rest rest') (e : Env) :
    Finds (LikeAll Token.Same Worded)
      (inOwnScope (Check.statements e .open qs) >>= fun body =>
        rest >>= fun ts => pure (.node .block line body :: ts))
      (inOwnScope (Check.statements e .open qs') >>= fun body =>
        rest' >>= fun ts => pure (.node .block line body :: ts)) :=
  (finds_inOwnScope (hin.statements e .open)).bind fun _ _ hb =>
    h.bind fun _ _ hs => .pure (.cons (same_node ⟨rfl, by simp⟩ hb) hs)

/-- A node with its block put back, before the rest of a row. -/
theorem finds_withBlock {qs qs' : List Tree} {rest rest' : Check (List Tree)}
    {body body' : Check (Option Tree)} (hr : r.isNamed = false ∧ r ≠ .string)
    (hq : LikeAll Token.Same Worded qs qs') (hb : Finds (Option.Rel Tree.Same) body body')
    (h : Finds (LikeAll Token.Same Worded) rest rest') :
    Finds (LikeAll Token.Same Worded)
      (body >>= fun b => rest >>= fun ts => pure (.node r line (Tree.putFirst .block b qs) :: ts))
      (body' >>= fun b => rest' >>= fun ts => pure (.node r line (Tree.putFirst .block b qs') :: ts)) :=
  hb.bind fun _ _ hb => h.bind fun _ _ hs =>
    .pure (.cons (same_node hr (LikeAll.putFirst hq hb _)) hs)

theorem BlockFinds.node {qs qs' : List Tree} (hf : Formed P g .plain (.node r line qs))
    (ht : StatementFinds (.node r line qs)) (row : Worded r qs qs')
    (hq : LikeAll Token.Same Worded qs qs') (h : BlockFinds ps ps') :
    BlockFinds (.node r line qs :: ps) (.node r line qs' :: ps') where
  statements e _ _ hflow := by
    unfold Check.statements
    refine (finds_enter hflow _ _).bind fun _ _ hflow => ?_
    refine (ht.statement e _ (.node row hq)).bind fun _ _ hs => ?_
    exact (h.statements e (after_same hflow hs)).bind fun _ _ hts => .pure (.cons hs hts)
  bodyOf e := by
    by_cases hr : r = .block
    · subst hr
      unfold Check.bodyOf
      exact ((ht.parts _ hq).statements e .open).bind fun _ _ hs =>
        .pure (.some (same_node ⟨rfl, by simp⟩ hs))
    · have hskip : ∀ inner others, Check.bodyOf e (.node r line inner :: others) = Check.bodyOf e others := by
        intro inner others
        cases r <;> first | exact absurd rfl hr | rfl
      rw [hskip, hskip]
      exact h.bodyOf e
  blockOf e := by
    by_cases hr : r = .block
    · subst hr
      unfold Check.blockOf
      exact (finds_inOwnScope ((ht.parts _ hq).statements e .open)).bind fun _ _ hs =>
        .pure (.some (same_node ⟨rfl, by simp⟩ hs))
    · have hskip : ∀ inner others, Check.blockOf e (.node r line inner :: others) = Check.blockOf e others := by
        intro inner others
        cases r <;> first | exact absurd rfl hr | rfl
      rw [hskip, hskip]
      exact h.blockOf e
  branches e := by
    have condition := (finds_condition (e := e) hf (.node row hq)).bind fun _ _ hfirst =>
      (h.branches e).bind fun _ _ hs =>
        .pure (A := LikeAll Token.Same Worded) (.cons hfirst hs)
    cases r with
    | block => exact (ht.parts _ hq).inside (h.branches e) e
    | elifBlock =>
      unfold Check.branches
      exact ((ht.parts _ hq).branch e).bind fun _ _ hb => (h.branches e).bind fun _ _ hs =>
        .pure (.cons (same_node ⟨rfl, by simp⟩ hb) hs)
    | elseBlock => exact finds_withBlock ⟨rfl, by simp⟩ hq ((ht.parts _ hq).blockOf e) (h.branches e)
    | _ => exact condition
  branch e := by
    have condition := (finds_condition (e := e) hf (.node row hq)).bind fun _ _ hfirst =>
      (h.branch e).bind fun _ _ hs =>
        .pure (A := LikeAll Token.Same Worded) (.cons hfirst hs)
    cases r with
    | block => exact (ht.parts _ hq).inside (h.branch e) e
    | _ => exact condition
  handlers e := by
    have whole : Finds (LikeAll Token.Same Worded)
        (Check.handlers e ps >>= fun ts => pure (.node r line qs :: ts))
        (Check.handlers e ps' >>= fun ts => pure (.node r line qs' :: ts)) :=
      (h.handlers e).bind fun _ _ hs => .pure (.cons (.node row hq) hs)
    cases r with
    | block => exact (ht.parts _ hq).inside (h.handlers e) e
    | catchBlock =>
      unfold Check.handlers
      refine finds_push.bindSame fun _ => ?_
      refine (finds_declareOutput (same_node ⟨rfl, by simp⟩ hq) _).bindSame fun _ => ?_
      refine ((ht.parts _ hq).bodyOf e).bind fun _ _ hb => finds_pop.bindSame fun _ => ?_
      exact (h.handlers e).bind fun _ _ hs =>
        .pure (.cons (same_node ⟨rfl, by simp⟩ (LikeAll.putFirst hq hb _)) hs)
    | finallyBlock => exact finds_withBlock ⟨rfl, by simp⟩ hq ((ht.parts _ hq).blockOf e) (h.handlers e)
    | _ => exact whole

theorem BlockFinds.of (hf : ∀ p ∈ ps, Formed P g .plain p) (h : ∀ p ∈ ps, StatementFinds p)
    (hp : LikeAll Token.Same Worded ps ps') : BlockFinds ps ps' := by
  induction hp with
  | nil => exact .nil
  | cons hfirst _ ih =>
    obtain ⟨hformed, hfs⟩ := List.forall_mem_cons.1 hf
    obtain ⟨hown, hs⟩ := List.forall_mem_cons.1 h
    cases hfirst with
    | token hu => exact (ih hfs hs).token hu
    | node row parts => exact .node hformed hown row parts (ih hfs hs)

/-! ## Statements -/

theorem putFirst_of_not {new : Option Tree} (h : ∀ p ∈ ps, p.isA r = false) :
    Tree.putFirst r new ps = ps := by
  induction ps with
  | nil => cases new <;> rfl
  | cons p ps ih =>
    simp only [List.forall_mem_cons] at h
    cases new with
    | none => rfl
    | some n => simp [Tree.putFirst, h.1, ih h.2]

/-- What is read of a node's text is not touched by putting back its block. -/
theorem worded_putBlock (h : Worded r ps ps') (new new' : Option Tree) :
    Worded r (Tree.putFirst .block new ps) (Tree.putFirst .block new' ps') where
  head hr := by
    obtain ⟨u, ts, u', ts', rfl, rfl, hu⟩ := h.head hr
    rw [putFirst_cons rfl, putFirst_cons rfl]
    exact ⟨_, _, _, _, rfl, rfl, hu⟩
  types hr := by
    obtain ⟨u, ts, u', ts', rfl, rfl, hu⟩ := h.head (by simp [hr, Rule.isNamed])
    have htypes : ∀ p ∈ ts, p.isA .types = true := h.types hr
    rw [putFirst_cons rfl]
    rwa [List.tail_cons, putFirst_of_not fun p hp => Tree.isA_ne (htypes p hp) (by simp)]

/-- A call of a service or a mutation, which may have outputs and a block. -/
theorem finds_call {t t' : Tree} (hf : Formed P g .plain t) (ht : t.Same t')
    (rows : BlockFinds ps ps') (e : Env) :
    Finds Tree.Same
      (value e t >>= fun out => declareOutput out.1 out.2 >>= fun _ => blockOf e ps >>= fun body =>
        match out.1 with
        | .node rule line qs => pure (.node rule line (Tree.putFirst .block body qs))
        | t => pure t)
      (value e t' >>= fun out => declareOutput out.1 out.2 >>= fun _ => blockOf e ps' >>= fun body =>
        match out.1 with
        | .node rule line qs => pure (.node rule line (Tree.putFirst .block body qs))
        | t => pure t) := by
  refine (finds_value hf ht).bind ?_
  rintro ⟨t, ty⟩ ⟨t', ty'⟩ ho
  obtain rfl : ty' = ty := ho.ty
  refine (finds_declareOutput ho.tree _).bindSame fun _ => (rows.blockOf e).bind fun body body' hb => ?_
  have htree : t.Same t' := ho.tree
  cases htree with
  | token hu => exact .pure (.token hu)
  | node row parts => exact .pure (.node (worded_putBlock row _ _) (LikeAll.putFirst parts hb _))

theorem statement_finds (h : Formed P g .plain t) : StatementFinds t := by
  induction h with
  | token u =>
    refine ⟨fun e t' ht => ?_, fun ps' hp => ?_⟩
    · cases ht with
      | token hu => exact .pure (.token hu)
    · cases hp
      exact .nil
  | @node rule line ps content own parts ih =>
    have hf : Formed P g .plain (.node rule line ps) := .node content own parts
    refine ⟨fun e t' ht => ?_, fun ps' hp => .of parts ih hp⟩
    have hline := line_same ht
    have hvalue := finds_value (e := e) hf ht
    cases ht with
    | @node _ _ _ ps' row hp =>
    have rows : BlockFinds ps ps' := .of parts ih hp
    have made : ∀ {r : Rule} {qs qs' : List Tree}, r.isNamed = false ∧ r ≠ .string →
        LikeAll Token.Same Worded qs qs' → (Tree.node r line qs).Same (.node r line qs') :=
      fun hr hq => same_node hr hq
    cases rule with
    | assignment =>
      exact (finds_assignment parts hp content).bind fun _ _ hs => .pure (made ⟨rfl, by simp⟩ hs)
    | functionCall => exact hvalue.bind fun _ _ ho => .pure ho.tree
    | expressionStatement => exact hvalue.bind fun _ _ ho => .pure ho.tree
    | ifBlock => exact (rows.branches e).bind fun _ _ hs => .pure (made ⟨rfl, by simp⟩ hs)
    | tryBlock => exact (rows.handlers e).bind fun _ _ hs => .pure (made ⟨rfl, by simp⟩ hs)
    | returnStatement =>
      exact (finds_returned parts hp).bind fun _ _ hs => .pure (made ⟨rfl, by simp⟩ hs)
    | throwStatement =>
      exact (finds_nodeValue parts hp 0).bind fun _ _ ho =>
        .pure (made ⟨rfl, by simp⟩ (LikeAll.putNode hp ho.tree 0))
    | importStatement =>
      have hname := nameOf_same hp
      unfold statement
      rw [hline]
      generalize nameOf? ps = name, nameOf? ps' = name' at hname
      cases hname with
      | none => exact .pure (.node row hp)
      | @some u u' hu =>
        have hu : u'.literal = u.literal := hu
        dsimp only
        rw [hu]
        exact (finds_declare _ _ _ _ _).bindSame fun _ => .pure (.node row hp)
    | serviceCall => exact finds_call hf (.node row hp) rows e
    | mutation => exact finds_call hf (.node row hp) rows e
    | whileBlock =>
      have after {first first' : Option Tree} (hfirst : Option.Rel Tree.Same first first') :
          Finds Tree.Same
            (blockOf e ps >>= fun body => pure (.node .whileBlock line
              (Tree.putFirst .block body (Tree.putNode first 0 ps))))
            (blockOf e ps' >>= fun body => pure (.node .whileBlock line
              (Tree.putFirst .block body (Tree.putNode first' 0 ps')))) :=
        (rows.blockOf e).bind fun _ _ hb =>
          .pure (made ⟨rfl, by simp⟩ (LikeAll.putFirst (LikeAll.putNode hp hfirst 0) hb _))
      have hnode := rel_find? hp Like.isNode
      unfold statement
      cases hn : ps.find? Tree.isNode with
      | none =>
        rw [hn] at hnode
        generalize ps'.find? Tree.isNode = node' at hnode
        cases hnode
        exact after .none
      | some t =>
        have ht : t ∈ ps := List.mem_of_find?_eq_some hn
        rw [hn] at hnode
        generalize ps'.find? Tree.isNode = node' at hnode
        cases hnode with
        | some hu =>
          exact ((finds_condition (parts t ht) hu).map fun _ _ => .some).bind fun _ _ => after
    | foreachBlock =>
      have hnames := outputNames_same hp
      unfold statement
      refine (finds_nodeValue parts hp 0).bind ?_
      rintro ⟨source, ty⟩ ⟨source', ty'⟩ ho
      obtain rfl : ty' = ty := ho.ty
      dsimp only
      rw [hline, hnames.length_eq]
      refine (finds_iteratedTypes _ _ _ _).bindSame fun tys => finds_push.bindSame fun _ => ?_
      refine (finds_declareAll _ hnames tys).bindSame fun _ => ?_
      refine (rows.bodyOf e).bind fun _ _ hb => finds_pop.bindSame fun _ => .pure ?_
      exact made ⟨rfl, by simp⟩ (LikeAll.putFirst (LikeAll.putNode hp ho.tree 0) hb _)
    | functionBlock =>
      have hname := nameOf_same hp
      have hparameters := parameters_same hp
      have hreturns := spelledOrAny_same (returnTypes_same hp) isA_returnTypes
      unfold statement
      rw [hline, hreturns]
      generalize nameOf? ps = name, nameOf? ps' = name' at hname
      cases hname with
      | none => exact .pure (.node row hp)
      | @some u u' hu =>
        have hu : u'.literal = u.literal := hu
        dsimp only
        rw [hu]
        refine finds_push.bindSame fun _ => finds_topNumber.bindSame fun number => ?_
        rw [parameterTypes_same hparameters]
        refine (finds_declareAll _ (parameterNames_same hparameters) _).bindSame fun _ => ?_
        refine (rows.bodyOf _).bind fun _ _ hb => finds_pop.bindSame fun _ => .pure ?_
        exact made ⟨rfl, by simp⟩ (LikeAll.putFirst hp hb _)
    | whenBlock =>
      unfold statement
      refine (value_finds hf).rows ps' hp |>.arguments.bind ?_
      rintro ⟨given, supplied⟩ ⟨given', supplied'⟩ hg
      have hall := LikeAll.putFirst hp hg.tree .arguments
      dsimp only at hall ⊢
      rcases find_same hp .path with ⟨hn, hn'⟩ | ⟨path, path', hn, hn', hpath, hlike⟩
      · simp only [hn, hn', Option.bind_none]
        exact .pure (made ⟨rfl, by simp⟩ hall)
      · obtain ⟨u, u', hu, hu', hsame⟩ := firstToken_of_isA hlike hpath rfl
        simp only [hn, hn', Option.bind_some, hu, hu']
        refine (finds_listening hsame (nameOf_same hp) hg.supplied).bindSame fun ty => ?_
        refine finds_push.bindSame fun _ => ?_
        refine (finds_declareOutput (.node row hp) ty).bindSame fun _ => ?_
        refine (rows.bodyOf e).bind fun _ _ hb => finds_pop.bindSame fun _ => .pure ?_
        exact made ⟨rfl, by simp⟩ (LikeAll.putFirst hall hb _)
    | _ => exact .pure (.node row hp)

/-! ## Stories -/

theorem finds_mapM {A : Tree → Tree → Prop} {β : Type} {f f' : Tree → Check β}
    (h : List.Forall₂ A ps ps') (hf : ∀ t t', A t t' → Finds Eq (f t) (f' t')) :
    Finds Eq (ps.mapM f) (ps'.mapM f') := by
  induction h with
  | nil => exact .pure rfl
  | cons ha _ ih =>
    rw [List.mapM_cons, List.mapM_cons]
    exact (hf _ _ ha).bindSame fun _ => ih.bindSame fun _ => .pure rfl

/-- Such trees of a rule. -/
theorem findAll_same (h : t.Same t') (r : Rule) :
    List.Forall₂ (fun p p' => p.isA r = true ∧ p.Same p') (t.findAll r) (t'.findAll r) := by
  have hall := Like.findAll h r
  have hmem : ∀ p ∈ t.findAll r, p.isA r = true := fun p hp => (List.mem_filter.1 hp).2
  revert hmem
  generalize t.findAll r = ps, t'.findAll r = ps' at hall
  intro hmem
  induction hall with
  | nil => exact .nil
  | cons hp _ ih =>
    obtain ⟨hr, hmem⟩ := List.forall_mem_cons.1 hmem
    exact .cons ⟨hr, hp⟩ (ih hmem)

/-- The type that is written of a part of a function, if there is such a part. -/
theorem finds_typeOf (h : t.Same t') :
    Finds Eq (writtenType (t.find? .types)) (writtenType (t'.find? .types)) :=
  finds_writtenType (h.find? .types) fun _ ht => List.find?_some ht

theorem finds_signature (functions : NameMap Signature) (h : t.Same t') :
    Finds Eq (signature functions t) (signature functions t') := by
  have hname : Option.Rel SameText (t.token? .name) (t'.token? .name) := nameOf_same h.parts
  have hsame : Option.Rel Token.Same (t.token? .name) (t'.token? .name) :=
    rel_find? (LikeAll.tokens h.parts) fun u u' hu => by simp [hu.kind]
  have hline := line_same h
  have hreturns := h.find? .returns
  unfold signature
  rw [hline]
  generalize t.token? .name = name, t'.token? .name = name' at hname hsame
  cases hname with
  | none => exact .pure rfl
  | @some u u' hu =>
    have hu : u'.literal = u.literal := hu
    have hposition : u'.line = u.line := by
      cases hsame with
      | some hs => exact hs.line
    dsimp only
    rw [hu, hposition]
    refine (finds_mapM (findAll_same h .parameter) fun p p' ⟨hr, hp⟩ => ?_).bindSame fun parameters => ?_
    · obtain ⟨v, v', hv, hv', hsame⟩ := firstToken_of_isA hp hr rfl
      have hsame : v'.literal = v.literal := hsame
      rw [hv, hv', Option.map_some, Option.map_some, hsame]
      exact (finds_typeOf hp).bindSame fun _ => .pure rfl
    · generalize t.find? .returns = returns, t'.find? .returns = returns' at hreturns
      cases hreturns with
      | none =>
        refine Follows.bindSame (.pure rfl) fun _ => ?_
        split
        · exact (finds_report _ _ _ _ _).bindSame fun _ => .pure rfl
        · exact .pure rfl
      | some hr =>
        refine (finds_typeOf hr).bindSame fun returns => ?_
        split
        · exact (finds_report _ _ _ _ _).bindSame fun _ => .pure rfl
        · exact .pure rfl

theorem finds_signatures (h : t.Same t') : Finds Eq (signatures t) (signatures t') := by
  have hwalk := rel_filter (Like.walk _ _ h) (Like.isA .functionBlock)
  unfold signatures
  generalize t.walk.filter (·.isA .functionBlock) = ps, t'.walk.filter (·.isA .functionBlock) = ps'
    at hwalk
  generalize NameMap.empty = functions
  induction hwalk generalizing functions with
  | nil => exact .pure rfl
  | cons hp _ ih =>
    rw [List.foldlM_cons, List.foldlM_cons]
    exact (finds_signature functions hp).bindSame fun functions => ih functions

/-- Trees that say the same, and the functions that are declared in them. -/
structure Declared (out out' : Tree × NameMap Signature) : Prop where
  tree : out.1.Same out'.1
  functions : out'.2 = out.2

theorem finds_tree {features : Features} {registry : Option Registry} {left : List Tree}
    (hf : ∀ p ∈ left, Formed P g .plain p) (h : (Tree.of .start left).Same t') :
    Finds Declared (tree features registry (.of .start left)) (tree features registry t') := by
  have hsignatures := finds_signatures h
  cases h with
  | @node _ _ _ left' row parts =>
    have rows : BlockFinds left left' := .of hf (fun p hp => statement_finds (hf p hp)) parts
    unfold tree
    refine hsignatures.bindSame fun functions => finds_push.bindSame fun _ => ?_
    exact (rows.statements _ .open).bind fun _ _ hs => .pure ⟨same_node ⟨rfl, by simp⟩ hs, rfl⟩

/-- A story and one that says the same are checked with the same result. -/
theorem story_same {features : Features} {registry : Option Registry} {root : Scope} {v : Tree}
    {left : List Tree} {analysis : Analysis} (hf : ∀ p ∈ left, Formed P g .plain p)
    (h : (Tree.of .start left).Same t')
    (hv : story features registry root (.of .start left) = .ok (v, analysis)) :
    ∃ v' analysis', story features registry root t' = .ok (v', analysis') ∧ v.Same v' ∧
      analysis'.services = analysis.services ∧
      analysis'.diagnostics.map Diagnostic.severity = analysis.diagnostics.map Diagnostic.severity := by
  obtain ⟨⟨out, s⟩, hout, hv⟩ := ok_of_bind hv
  obtain ⟨out', s', hout', hdeclared, hs⟩ :=
    finds_tree hf h _ { scopes := .ofRoot root, reports := [], services := .empty } out s
      ⟨rfl, rfl, rfl⟩ hout
  obtain ⟨rfl, rfl⟩ := Prod.mk.inj (Except.ok.inj hv)
  refine ⟨out'.1, ⟨s'.reports.reverse, s'.services.names, out'.2, s'.scopes.top⟩, ?_, hdeclared.tree,
    congrArg NameMap.names hs.services, ?_⟩
  · unfold story
    rw [hout']
    rfl
  · simp only [List.map_reverse, hs.severities]

end StoryLang.Check
