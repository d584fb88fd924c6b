/-
Checking a story again.

As with values, a checked statement is settled: from the same state it turns
into nothing else, and checking ends in the same state. A block is checked in
the scopes that the parts before it lead to, and those are the same again.
-/
import StoryLang.Proofs.Check.Again.Value
import StoryLang.Proofs.Check.Around
import StoryLang.Proofs.Check.Statement
import StoryLang.Proofs.Hoist.Normal
import StoryLang.Proofs.Story.Plain

namespace StoryLang.Check

variable {α β γ : Type} {g : Grammar} {rule : Rule} {line : Option Coord} {t t' : Tree}
  {ps ps' ts : List Tree} {e : Env} {s s' : State}

/-! ## What is read of a statement -/

theorem TurnedAll.outputNames (h : TurnedAll ps ps') : outputNames ps' = outputNames ps := by
  have hfind : Option.Rel Turned (ps.find? (·.isA .output)) (ps'.find? (·.isA .output)) := h.find? rfl
  have houtput : ∀ o ∈ ps.find? (·.isA .output), o.isA .output = true := fun _ => List.find?_some
  unfold Check.outputNames
  generalize ps.find? (·.isA .output) = first, ps'.find? (·.isA .output) = first' at hfind houtput
  cases hfind with
  | none => rfl
  | some hturned =>
    obtain ⟨l, names, rfl⟩ := Tree.isA_iff.1 (houtput _ rfl)
    obtain ⟨names', rfl, hnames⟩ := hturned.of_node (by simp)
    exact congrArg (List.filter _) hnames.tokensOf

theorem TurnedAll.declareOutput (h : TurnedAll ps ps') (ty : Ty) :
    declareOutput (.node rule line ps') ty = declareOutput (.node rule line ps) ty := by
  rw [Check.declareOutput, Check.declareOutput, (Turned.node h).line?]
  exact congrArg (declareAll _ · _) h.outputNames

theorem Turned.enter (h : Turned t t') (flow : Flow) : flow.enter t' = flow.enter t := by
  cases flow with
  | stopped keyword => rw [Flow.enter, Flow.enter, h.position?]
  | _ => rfl

theorem Stable.inOwnScope {R : α → α → Prop} {check : α → Check α} {a : α} (hR : R a a)
    (h : Stable R id check a) : Stable R id (fun a => inOwnScope (check a)) a := by
  refine .before (x := push) (f := fun _ a => check a >>= fun b => pop >>= fun _ => pure b) hR
    (fun _ => ?_) fun _ _ => rfl
  exact .behind hR h (fun _ => .after fun _ => gives_pure rfl) fun _ _ => rfl

theorem stable_condition (h : StableTree t) (e : Env) : Stable Turned id (condition e) t := by
  refine .behind (.refl t) (h.value e) (fun out => ?_) fun t' _ => by rw [condition]
  dsimp only
  split
  · exact .after fun _ => gives_pure rfl
  · exact gives_pure rfl

theorem bodyOf_find (ps : List Tree) : bodyOf e ps = bodyOf e (ps.find? (·.isA .block)).toList :=
  find_of_other (fun _ _ _ => rfl) (fun _ _ => rfl) (fun _ _ _ _ hr => bodyOf_other hr) ps

theorem blockOf_find (ps : List Tree) : blockOf e ps = blockOf e (ps.find? (·.isA .block)).toList :=
  find_of_other (fun _ _ _ => rfl) (fun _ _ => rfl) (fun _ _ _ _ hr => blockOf_other hr) ps

/-- A row with the part that is checked put back. -/
theorem StableFirst.putBack {check : List Tree → Check (Option Tree)} (h : StableFirst rule id check ps)
    (hfind : ∀ ps, check ps = check (ps.find? (·.isA rule)).toList) (hr : rule.stays = true) :
    Stable TurnedAll id (fun ps => check ps >>= fun made => pure (Tree.putFirst rule made ps)) ps := by
  intro s out s' hrun
  obtain ⟨made, u, hmade, hrun⟩ := bind_ok_iff.1 hrun
  obtain ⟨rfl, rfl⟩ := pure_ok_iff.1 hrun
  obtain ⟨hturned, hagain⟩ := h.put [] hfind hr nofun hmade
  obtain ⟨hagain, hput⟩ := hagain [] nofun
  exact ⟨hturned, bind_ok_iff.2 ⟨made, u, hagain, pure_ok_iff.2 ⟨hput, rfl⟩⟩⟩

/-! ## Rows of statements -/

/-- What checking a row of statements or branches again does, whichever way it is followed. -/
structure StableBodies (ps : List Tree) : Prop where
  statements : ∀ e flow, Stable TurnedAll id (statements e flow) ps
  bodyOf : ∀ e, StableFirst .block id (bodyOf e) ps
  blockOf : ∀ e, StableFirst .block id (blockOf e) ps
  branches : ∀ e, Stable TurnedAll id (branches e) ps
  branch : ∀ e, Stable TurnedAll id (branch e) ps
  handlers : ∀ e, Stable TurnedAll id (handlers e) ps

structure StableStatement (t : Tree) : Prop where
  tree : StableTree t
  statement : ∀ e, Stable Turned id (statement e) t
  bodies : StableBodies t.parts

theorem StableBodies.nil : StableBodies [] where
  statements _ _ := .kept .nil rfl rfl
  bodyOf e s out s' h := by
    obtain ⟨rfl, rfl⟩ := pure_ok_iff.1 h
    exact ⟨.none, rfl⟩
  blockOf e s out s' h := by
    obtain ⟨rfl, rfl⟩ := pure_ok_iff.1 h
    exact ⟨.none, rfl⟩
  branches _ := .kept .nil rfl rfl
  branch _ := .kept .nil rfl rfl
  handlers _ := .kept .nil rfl rfl

theorem StableBodies.token {u : Token} (h : StableBodies ps) : StableBodies (.token u :: ps) where
  statements e flow := (h.statements e flow).pass (.token u :: ·) (fun _ => rfl) fun _ => rfl
  bodyOf e _ _ _ hrun := h.bodyOf e hrun
  blockOf e _ _ _ hrun := h.blockOf e hrun
  branches e := (h.branches e).pass (.token u :: ·) (fun _ => rfl) fun _ => rfl
  branch e := (h.branch e).pass (.token u :: ·) (fun _ => rfl) fun _ => rfl
  handlers e := (h.handlers e).pass (.token u :: ·) (fun _ => rfl) fun _ => rfl

theorem StableBodies.node {inner : List Tree} (ht : StableStatement (.node rule line inner))
    (h : StableBodies ps) : StableBodies (.node rule line inner :: ps) where
  statements e flow s out s' hrun := by
    rw [Check.statements] at hrun
    obtain ⟨flow', u, henter, hrun⟩ := bind_ok_iff.1 hrun
    obtain ⟨t', v, hfirst, hrun⟩ := bind_ok_iff.1 hrun
    obtain ⟨rest, w, hrest, hrun⟩ := bind_ok_iff.1 hrun
    obtain ⟨rfl, rfl⟩ := pure_ok_iff.1 hrun
    obtain ⟨hturned, hagain⟩ := ht.statement e hfirst
    obtain ⟨hrestTurned, hrestAgain⟩ := h.statements e (flow'.after t') hrest
    refine ⟨.cons hturned hrestTurned, ?_⟩
    rw [← hturned.enter flow] at henter
    obtain ⟨rule', inner', rfl⟩ := hturned.node_iff
    rw [id, Check.statements]
    exact bind_ok_iff.2 ⟨flow', u, henter, bind_ok_iff.2 ⟨_, v, hagain,
      bind_ok_iff.2 ⟨rest, w, hrestAgain, rfl⟩⟩⟩
  bodyOf e s out s' hrun := by
    by_cases hr : rule = .block
    · subst hr
      rw [Check.bodyOf] at hrun
      obtain ⟨made, u, hmade, hrun⟩ := bind_ok_iff.1 hrun
      obtain ⟨rfl, rfl⟩ := pure_ok_iff.1 hrun
      obtain ⟨hturned, hagain⟩ := ht.bodies.statements e .open hmade
      exact ⟨.some (.node hturned), bind_ok_iff.2 ⟨made, u, hagain, rfl⟩⟩
    · rw [bodyOf_other hr] at hrun
      rw [List.find?_cons_of_neg (by simp [Tree.isA, Tree.rule?, hr])]
      exact h.bodyOf e hrun
  blockOf e s out s' hrun := by
    by_cases hr : rule = .block
    · subst hr
      rw [Check.blockOf] at hrun
      obtain ⟨made, u, hmade, hrun⟩ := bind_ok_iff.1 hrun
      obtain ⟨rfl, rfl⟩ := pure_ok_iff.1 hrun
      obtain ⟨hturned, hagain⟩ := (ht.bodies.statements e .open).inOwnScope (TurnedAll.refl _) hmade
      exact ⟨.some (.node hturned), bind_ok_iff.2 ⟨made, u, hagain, rfl⟩⟩
    · rw [blockOf_other hr] at hrun
      rw [List.find?_cons_of_neg (by simp [Tree.isA, Tree.rule?, hr])]
      exact h.blockOf e hrun
  branches e := by
    by_cases hb : rule = .block
    · subst hb
      exact .inside (fun made rest => .node .block line made :: rest)
        ((ht.bodies.statements e .open).inOwnScope (TurnedAll.refl _)) (fun _ => h.branches e)
        (fun _ _ => rfl) fun _ _ _ => rfl
    by_cases he : rule = .elifBlock
    · subst he
      exact .inside (fun made rest => .node .elifBlock line made :: rest) (ht.bodies.branch e)
        (fun _ => h.branches e) (fun _ _ => rfl) fun _ _ _ => rfl
    by_cases hl : rule = .elseBlock
    · subst hl
      refine .inside (fun made rest => .node .elseBlock line made :: rest) ((ht.bodies.blockOf e).putBack blockOf_find rfl)
        (fun _ => h.branches e) (fun _ _ => rfl) fun _ _ _ => ?_
      rw [Check.branches]
      simp only [bind_assoc, pure_bind]
    refine .cons List.cons (stable_condition ht.tree e) (fun _ => h.branches e) (fun _ _ => rfl)
      fun q qs hq => ?_
    obtain ⟨rule', inner', rfl⟩ := hq.node_iff
    exact branches_other (hq.rule_ne rfl hb) (hq.rule_ne rfl he) (hq.rule_ne rfl hl)
  branch e := by
    by_cases hb : rule = .block
    · subst hb
      exact .inside (fun made rest => .node .block line made :: rest)
        ((ht.bodies.statements e .open).inOwnScope (TurnedAll.refl _)) (fun _ => h.branch e)
        (fun _ _ => rfl) fun _ _ _ => rfl
    refine .cons List.cons (stable_condition ht.tree e) (fun _ => h.branch e) (fun _ _ => rfl)
      fun q qs hq => ?_
    obtain ⟨rule', inner', rfl⟩ := hq.node_iff
    exact branch_other (hq.rule_ne rfl hb)
  handlers e := by
    by_cases hb : rule = .block
    · subst hb
      exact .inside (fun made rest => .node .block line made :: rest)
        ((ht.bodies.statements e .open).inOwnScope (TurnedAll.refl _)) (fun _ => h.handlers e)
        (fun _ _ => rfl) fun _ _ _ => rfl
    by_cases hc : rule = .catchBlock
    · subst hc
      have hcatch : Stable TurnedAll id (fun inner => push >>= fun _ =>
          declareOutput (.node .catchBlock line inner) .anyObject >>= fun _ =>
            (Check.bodyOf e inner >>= fun body => pure (Tree.putFirst .block body inner)) >>= fun inner =>
              pop >>= fun _ => pure inner) inner := by
        refine .before (TurnedAll.refl _) (fun _ => ?_) fun _ _ => rfl
        refine .before (TurnedAll.refl _) (fun _ => ?_) fun _ hq => by rw [hq.declareOutput]
        exact .behind (TurnedAll.refl _) ((ht.bodies.bodyOf e).putBack bodyOf_find rfl)
          (fun _ => .after fun _ => gives_pure rfl) fun _ _ => rfl
      refine .inside (fun made rest => .node .catchBlock line made :: rest) hcatch
        (fun _ => h.handlers e) (fun _ _ => rfl) fun _ _ _ => ?_
      rw [Check.handlers]
      simp only [bind_assoc, pure_bind]
    by_cases hf : rule = .finallyBlock
    · subst hf
      refine .inside (fun made rest => .node .finallyBlock line made :: rest) ((ht.bodies.blockOf e).putBack blockOf_find rfl)
        (fun _ => h.handlers e) (fun _ _ => rfl) fun _ _ _ => ?_
      rw [Check.handlers]
      simp only [bind_assoc, pure_bind]
    exact (h.handlers e).pass (.node rule line inner :: ·) (fun _ => rfl) fun _ => handlers_other hb hc hf

theorem StableBodies.of (h : ∀ p ∈ ps, StableStatement p) : StableBodies ps := Tree.byRow h .nil .token .node

/-! ## Statements -/

theorem nodeValue_node {i : Nat} (h : (ps.filter Tree.isNode)[i]? = some t) :
    nodeValue e i ps = value e t >>= fun v => pure (some v.1, v.2) := by
  rw [nodeValue, h]

/-- An assignment: the value is checked, and then the target if it is a part of a variable. -/
theorem assignment_parts {target v : Tree} {sign root : Token} (isPath : target.isA .path = true)
    (rooted : target.firstToken? = some root) (hv : v.isNode = true) :
    assignment e t [target, .token sign, v] = value e v >>= fun source =>
      if target.parts.any (·.isA .pathFragment) then
        value e target >>= fun out => assignable out.2 source.2 root.position >>= fun _ =>
          pure [out.1, .token sign, source.1]
      else lookup e root.literal >>= fun found => (match found with
        | some binding => assignable binding.ty source.2 root.position
        | none => declare root.literal source.2 t.line? root.position) >>= fun _ =>
          pure [target, .token sign, source.1] := by
  obtain ⟨tl, tps, rfl⟩ := Tree.isA_iff.1 isPath
  cases v with
  | token u => cases hv
  | node r l inner =>
    rw [assignment, nodeValue_node rfl]
    simp only [bind_assoc, pure_bind]
    refine bind_congr fun source => ?_
    have hfind : ([.node .path tl tps, .token sign, source.1] : List Tree).find? Tree.isNode =
        some (.node .path tl tps) := rfl
    have hput : Tree.putNode (some source.1) 1 [.node .path tl tps, .token sign, .node r l inner] =
        [.node .path tl tps, .token sign, source.1] := rfl
    rw [hput, hfind]
    dsimp only
    rw [rooted]
    dsimp only
    split
    · rfl
    · refine bind_congr fun found => ?_
      cases found <;> rfl

theorem stable_assignment {target v : Tree} {sign : Token} (ht : StableTree target) (hv : StableTree v)
    (isPath : target.isA .path = true) (rooted : target.firstToken?.isSome = true) (hn : v.isNode = true) :
    Stable TurnedAll id (fun ps => assignment e (.node .assignment line ps) ps)
      [target, .token sign, v] := by
  obtain ⟨root, rooted⟩ := Option.isSome_iff_exists.1 rooted
  intro s out s' hrun
  dsimp only [id] at hrun ⊢
  rw [assignment_parts isPath rooted hn] at hrun
  obtain ⟨⟨made, ty⟩, u, hvalue, hrun⟩ := bind_ok_iff.1 hrun
  obtain ⟨hmade, hagain⟩ := hv.value e hvalue
  have hnode : made.isNode = true := hmade.isNode.trans hn
  cases hdot : target.parts.any (·.isA .pathFragment) with
  | true =>
    rw [hdot, if_pos rfl] at hrun
    obtain ⟨⟨path, ty'⟩, w, hpath, hrun⟩ := bind_ok_iff.1 hrun
    obtain ⟨_, x, hfits, hrun⟩ := bind_ok_iff.1 hrun
    obtain ⟨rfl, rfl⟩ := pure_ok_iff.1 hrun
    obtain ⟨hturned, hpath⟩ := ht.value e hpath
    refine ⟨.cons hturned (.cons .token (.cons hmade .nil)), ?_⟩
    have hdot' : path.parts.any (·.isA .pathFragment) = true := by
      obtain ⟨l, inner, rfl⟩ := Tree.isA_iff.1 isPath
      obtain ⟨inner', rfl, hinner⟩ := hturned.of_node (by simp)
      exact (hinner.any_isA rfl).trans hdot
    rw [assignment_parts ((hturned.isA rfl).trans isPath) (hturned.firstToken?.trans rooted) hnode]
    refine bind_ok_iff.2 ⟨_, u, hagain, ?_⟩
    rw [hdot', if_pos rfl]
    exact bind_ok_iff.2 ⟨_, w, hpath, bind_ok_iff.2 ⟨_, x, hfits, rfl⟩⟩
  | false =>
    have hturned : TurnedAll [target, .token sign, v] [target, .token sign, made] :=
      .cons (.refl target) (.cons .token (.cons hmade .nil))
    rw [hdot, if_neg (by simp)] at hrun
    obtain ⟨found, w, hfound, hrun⟩ := bind_ok_iff.1 hrun
    obtain ⟨_, x, hfits, hrun⟩ := bind_ok_iff.1 hrun
    obtain ⟨rfl, rfl⟩ := pure_ok_iff.1 hrun
    refine ⟨hturned, ?_⟩
    rw [assignment_parts isPath rooted hnode, (Turned.node hturned).line?]
    refine bind_ok_iff.2 ⟨_, u, hagain, ?_⟩
    rw [hdot, if_neg (by simp)]
    exact bind_ok_iff.2 ⟨_, w, hfound, bind_ok_iff.2 ⟨_, x, hfits, rfl⟩⟩

/-- The value behind a word is checked, with something behind that. -/
theorem stable_value {v : Tree} {word : Token} {check : List Tree → Check (List Tree)}
    {f : Tree × Ty → Check β} (hv : StableTree v) (hn : v.isNode = true)
    (he : ∀ v', v'.isNode = true → check [.token word, v'] = value e v' >>= fun out => f out >>= fun _ =>
      pure [.token word, out.1]) : Stable TurnedAll id check [.token word, v] := by
  intro s out s' hrun
  rw [he v hn] at hrun
  obtain ⟨made, u, hmade, hrun⟩ := bind_ok_iff.1 hrun
  obtain ⟨b, w, hb, hrun⟩ := bind_ok_iff.1 hrun
  obtain ⟨rfl, rfl⟩ := pure_ok_iff.1 hrun
  obtain ⟨hturned, hagain⟩ := hv.value e hmade
  refine ⟨.cons .token (.cons hturned .nil), ?_⟩
  rw [id, he _ (hturned.isNode.trans hn)]
  exact bind_ok_iff.2 ⟨made, u, hagain, bind_ok_iff.2 ⟨b, w, hb, rfl⟩⟩

theorem nodeValue_behind {v : Tree} {word : Token} (hn : v.isNode = true) :
    nodeValue e 0 [.token word, v] = value e v >>= fun out => pure (some out.1, out.2) := by
  cases v with
  | token u => cases hn
  | node r l inner => exact nodeValue_node rfl

theorem putNode_behind {v : Tree} {word : Token} (made : Tree) (hn : v.isNode = true) :
    Tree.putNode (some made) 0 [.token word, v] = [.token word, made] := by
  cases v with
  | token u => cases hn
  | node r l inner => rfl

theorem stable_returned {v : Tree} {word : Token} (hv : StableTree v) (hn : v.isNode = true) :
    Stable TurnedAll id (returned e) [.token word, v] := by
  refine stable_value (e := e) (f := fun out => e.body.elim (pure ()) fun body =>
    if !body.returns.accepts out.2 then
      report .returnType [body.name, body.returns.text, out.2.text] out.1.position?
    else pure ()) hv hn fun v' hn' => ?_
  rw [returned, nodeValue_behind hn']
  simp only [bind_assoc, pure_bind, putNode_behind _ hn']
  refine bind_congr fun out => ?_
  cases e.body with
  | none => rfl
  | some body =>
    rw [Option.elim_some]
    by_cases hr : (!body.returns.accepts out.2) = true
    · simp only [if_pos hr]
    · simp only [if_neg hr, pure_bind]

theorem stable_throw {v : Tree} {word : Token} (hv : StableTree v) (hn : v.isNode = true) :
    Stable TurnedAll id (fun ps => nodeValue e 0 ps >>= fun out => pure (Tree.putNode out.1 0 ps))
      [.token word, v] := by
  refine stable_value (e := e) (f := fun _ => pure ()) hv hn fun v' hn' => ?_
  rw [nodeValue_behind hn']
  simp only [bind_assoc, pure_bind, putNode_behind _ hn']

/-! ### Statements with a block -/

/-- The block of a statement is put back behind what was checked before it. -/
theorem StableFirst.putBlock {check : List Tree → Check (Option Tree)} {rest : List Tree}
    {body : Option Tree} (front : List Tree) (h : StableFirst .block id check (front ++ rest))
    (hfind : ∀ ps, check ps = check (ps.find? (·.isA .block)).toList)
    (hfront : ∀ p ∈ front, p.isA .block = false) (hrun : check (front ++ rest) s = .ok (body, s')) :
    TurnedAll rest (Tree.putFirst .block body rest) ∧
      ∀ front', (∀ p ∈ front', p.isA .block = false) →
        Tree.putFirst .block body (front' ++ rest) = front' ++ Tree.putFirst .block body rest ∧
          check (front' ++ Tree.putFirst .block body rest) s = .ok (body, s') ∧
            Tree.putFirst .block body (front' ++ Tree.putFirst .block body rest) =
              front' ++ Tree.putFirst .block body rest := by
  obtain ⟨hrest, hall⟩ := h.put front hfind rfl hfront hrun
  exact ⟨hrest, fun front' hfront' => ⟨putFirst_front front' hfront', hall front' hfront'⟩⟩

/-- A call: its output is declared, and then its block is checked, which is behind all that the
type of the call depends on. -/
theorem stable_call (hf : Formed Token.Sound g .plain (.node rule line ps))
    (hrule : rule = .serviceCall ∨ rule = .mutation) (hps : ∀ p ∈ ps, StableTree p)
    (hblock : StableFirst .block id (blockOf e) ps) :
    Stable Turned id (statement e) (.node rule line ps) := by
  obtain ⟨front, extra, rfl, hfront, hcall⟩ := calledAgain hf hrule hps
  intro s out s' hrun
  rw [statement_call hrule] at hrun
  obtain ⟨⟨made, ty⟩, u, hvalue, hrun⟩ := bind_ok_iff.1 hrun
  obtain ⟨_, v, hdeclare, hrun⟩ := bind_ok_iff.1 hrun
  obtain ⟨body, w, hbody, hrun⟩ := bind_ok_iff.1 hrun
  obtain ⟨rule', front', rfl, hfront', hagain⟩ := hcall e s _ u hvalue
  obtain ⟨rfl, rfl⟩ := pure_ok_iff.1 hrun
  obtain ⟨hextra, hblock⟩ := hblock.putBlock front blockOf_find (fun p hp => (hfront p hp).2) hbody
  obtain ⟨hmade, hbody, hput⟩ := hblock front' fun p hp => (hfront' p hp).2
  obtain ⟨hturned, hvalue⟩ := hagain _ hextra
  have hrule' : rule' = .serviceCall ∨ rule' = .mutation := by
    obtain rfl | ⟨-, rfl⟩ := hturned.rule_eq
    · exact hrule
    · exact .inr rfl
  have hparts : TurnedAll (front' ++ extra) (front' ++ Tree.putFirst .block body extra) :=
    List.rel_append (TurnedAll.refl front') hextra
  rw [id, hmade, statement_call hrule']
  refine ⟨hturned, bind_ok_iff.2 ⟨_, u, hvalue, bind_ok_iff.2 ⟨(), v, ?_, bind_ok_iff.2 ⟨body, w, hbody, ?_⟩⟩⟩⟩
  · rw [hparts.declareOutput, hdeclare]
  · exact pure_ok_iff.2 ⟨by rw [hput], rfl⟩

/-- A loop: its condition is checked and then its block. -/
theorem stable_while {word : Token} {c : Tree} {rest : List Tree} (hc : StableTree c)
    (hf : c.fits .plain = true) (hblock : StableFirst .block id (blockOf e) (.token word :: c :: rest)) :
    Stable Turned id (statement e) (.node .whileBlock line (.token word :: c :: rest)) := by
  have hstatement {c : Tree} (hn : c.isNode = true) (rest : List Tree) :
      statement e (.node .whileBlock line (.token word :: c :: rest)) = condition e c >>= fun first =>
        blockOf e (.token word :: c :: rest) >>= fun body =>
          pure (.node .whileBlock line (Tree.putFirst .block body (.token word :: first :: rest))) := by
    cases c with
    | token u => cases hn
    | node r l inner =>
      rw [statement]
      have hfind : (Tree.token word :: .node r l inner :: rest).find? Tree.isNode = some (.node r l inner) := rfl
      simp only [hfind, map_eq_pure_bind, bind_assoc, pure_bind]
      rfl
  have hfront {c : Tree} (hc : c.isA .block = false) : ∀ p ∈ [.token word, c], p.isA .block = false :=
    List.forall_mem_cons.2 ⟨rfl, List.forall_mem_singleton.2 hc⟩
  have hn : c.isNode = true := by
    obtain ⟨_, _, _, rfl, -⟩ := Tree.fits_iff.1 hf
    rfl
  intro s out s' hrun
  rw [hstatement hn] at hrun
  obtain ⟨first, u, hfirst, hrun⟩ := bind_ok_iff.1 hrun
  obtain ⟨body, v, hbody, hrun⟩ := bind_ok_iff.1 hrun
  obtain ⟨rfl, rfl⟩ := pure_ok_iff.1 hrun
  obtain ⟨hturned, hagain⟩ : Turned c first ∧ condition e first s = .ok (first, u) :=
    stable_condition hc e hfirst
  obtain ⟨hrest, hblock⟩ := hblock.putBlock [.token word, c] blockOf_find
    (hfront (Tree.fits_isA hf ⟨rfl, rfl⟩)) hbody
  obtain ⟨hmade, hbody, hput⟩ := hblock [.token word, first] (hfront (hturned.beside hf).2)
  simp only [List.cons_append, List.nil_append] at hmade hbody hput
  rw [id, hmade, hstatement (hturned.isNode.trans hn)]
  refine ⟨.node (.cons .token (.cons hturned hrest)), ?_⟩
  exact bind_ok_iff.2 ⟨first, u, hagain, bind_ok_iff.2 ⟨body, v, hbody, pure_ok_iff.2 ⟨by rw [hput], rfl⟩⟩⟩

theorem isNode_of_fits {c : Tree} (hf : c.fits .plain = true) : c.isNode = true := by
  obtain ⟨_, _, _, rfl, -⟩ := Tree.fits_iff.1 hf
  rfl

/-- A loop over something: what that is shows how its names are declared for its block. -/
theorem stable_foreach {word : Token} {c : Tree} {rest : List Tree} (hc : StableTree c)
    (hf : c.fits .plain = true) (hblock : StableFirst .block id (bodyOf e) (.token word :: c :: rest)) :
    Stable Turned id (statement e) (.node .foreachBlock line (.token word :: c :: rest)) := by
  have hstatement {c : Tree} (hn : c.isNode = true) (rest : List Tree) :
      statement e (.node .foreachBlock line (.token word :: c :: rest)) = value e c >>= fun source =>
        iteratedTypes source.2 (outputNames (.token word :: c :: rest)).length source.1.position? >>= fun tys =>
        push >>= fun _ => declareAll (Tree.line? (.node .foreachBlock line (.token word :: c :: rest)))
          (outputNames (.token word :: c :: rest)) tys >>= fun _ =>
        bodyOf e (.token word :: c :: rest) >>= fun body => pop >>= fun _ =>
          pure (.node .foreachBlock line (Tree.putFirst .block body (.token word :: source.1 :: rest))) := by
    cases c with
    | token u => cases hn
    | node r l inner =>
      rw [statement, nodeValue_node rfl]
      simp only [bind_assoc, pure_bind]
      rfl
  have hfront {c : Tree} (hc : c.isA .block = false) : ∀ p ∈ [.token word, c], p.isA .block = false :=
    List.forall_mem_cons.2 ⟨rfl, List.forall_mem_singleton.2 hc⟩
  have hn : c.isNode = true := isNode_of_fits hf
  intro s out s' hrun
  rw [hstatement hn] at hrun
  obtain ⟨⟨source, ty⟩, u, hsource, hrun⟩ := bind_ok_iff.1 hrun
  obtain ⟨tys, v, htys, hrun⟩ := bind_ok_iff.1 hrun
  obtain ⟨_, w, hpush, hrun⟩ := bind_ok_iff.1 hrun
  obtain ⟨_, x, hdeclare, hrun⟩ := bind_ok_iff.1 hrun
  obtain ⟨body, y, hbody, hrun⟩ := bind_ok_iff.1 hrun
  obtain ⟨_, z, hpop, hrun⟩ := bind_ok_iff.1 hrun
  obtain ⟨rfl, rfl⟩ := pure_ok_iff.1 hrun
  obtain ⟨hturned, hagain⟩ := hc.value e hsource
  obtain ⟨hrest, hblock⟩ := hblock.putBlock [.token word, c] bodyOf_find
    (hfront (Tree.fits_isA hf ⟨rfl, rfl⟩)) hbody
  obtain ⟨hmade, hbody, hput⟩ := hblock [.token word, source] (hfront (hturned.beside hf).2)
  simp only [List.cons_append, List.nil_append] at hmade hbody hput
  have hparts : TurnedAll (.token word :: c :: rest) (.token word :: source :: Tree.putFirst .block body rest) :=
    .cons .token (.cons hturned hrest)
  rw [id, hmade, hstatement (hturned.isNode.trans hn), hparts.outputNames,
    (Turned.node hparts).line?]
  refine ⟨.node hparts, bind_ok_iff.2 ⟨_, u, hagain, bind_ok_iff.2 ⟨tys, v, htys,
    bind_ok_iff.2 ⟨_, w, hpush, bind_ok_iff.2 ⟨_, x, hdeclare, bind_ok_iff.2 ⟨body, y, hbody,
      bind_ok_iff.2 ⟨_, z, hpop, pure_ok_iff.2 ⟨by rw [hput], rfl⟩⟩⟩⟩⟩⟩⟩⟩

/-- A function: its block is checked with what the function declares. -/
theorem stable_function (hf : ∀ p ∈ ps, Formed Token.Sound g .plain p)
    (hblock : ∀ e, StableFirst .block id (bodyOf e) ps) :
    Stable Turned id (statement e) (.node .functionBlock line ps) := by
  intro s out s' hrun
  rw [statement] at hrun
  cases hname : nameOf? ps with
  | none =>
    rw [hname] at hrun
    obtain ⟨rfl, rfl⟩ := pure_ok_iff.1 hrun
    refine ⟨.refl _, ?_⟩
    rw [id, statement, hname]
    rfl
  | some name =>
    rw [hname] at hrun
    dsimp only at hrun
    obtain ⟨_, u, hpush, hrun⟩ := bind_ok_iff.1 hrun
    obtain ⟨floor, v, hfloor, hrun⟩ := bind_ok_iff.1 hrun
    obtain ⟨_, w, hdeclare, hrun⟩ := bind_ok_iff.1 hrun
    obtain ⟨body, x, hbody, hrun⟩ := bind_ok_iff.1 hrun
    obtain ⟨_, y, hpop, hrun⟩ := bind_ok_iff.1 hrun
    obtain ⟨rfl, rfl⟩ := pure_ok_iff.1 hrun
    obtain ⟨hparts, hblock⟩ := (hblock _).putBlock [] bodyOf_find (List.forall_mem_nil _) hbody
    obtain ⟨-, hbody, hput⟩ := hblock [] (List.forall_mem_nil _)
    rw [List.nil_append] at hput
    obtain ⟨hparameters, hreturns⟩ := hparts.declared hf
    have htypes : returnTypes (Tree.putFirst .block body ps) = returnTypes ps := by
      rw [returnTypes, returnTypes, hreturns]
    refine ⟨.node hparts, ?_⟩
    rw [id, statement, hparts.nameOf?, hname]
    dsimp only
    rw [hparameters, htypes, (Turned.node hparts).line?]
    exact bind_ok_iff.2 ⟨_, u, hpush, bind_ok_iff.2 ⟨floor, v, hfloor, bind_ok_iff.2 ⟨_, w, hdeclare,
      bind_ok_iff.2 ⟨body, x, hbody, bind_ok_iff.2 ⟨_, y, hpop, pure_ok_iff.2 ⟨by rw [hput], rfl⟩⟩⟩⟩⟩⟩

/-- A `when`: its arguments are checked, and then its block with what the event gives. -/
theorem stable_when {word event root : Token} {target : Tree} {l : Option Coord} {row rest : List Tree}
    (isPath : target.isA .path = true) (rooted : target.firstToken? = some root) (hr : StableRow row)
    (hblock : StableFirst .block id (bodyOf e)
      (.token word :: target :: .token event :: .node .arguments l row :: rest)) :
    Stable Turned id (statement e) (.node .whenBlock line
      (.token word :: target :: .token event :: .node .arguments l row :: rest)) := by
  have hstatement (row rest : List Tree) : statement e (.node .whenBlock line
      (.token word :: target :: .token event :: .node .arguments l row :: rest)) =
        suppliedBy e [] row >>= fun given => listening e root
          (nameOf? (.token word :: target :: .token event :: .node .arguments l row :: rest)) given.2 >>= fun ty =>
        push >>= fun _ => declareOutput (.node .whenBlock line
          (.token word :: target :: .token event :: .node .arguments l row :: rest)) ty >>= fun _ =>
        bodyOf e (.token word :: target :: .token event :: .node .arguments l row :: rest) >>= fun body =>
        pop >>= fun _ => pure (.node .whenBlock line (Tree.putFirst .block body
          (.token word :: target :: .token event :: .node .arguments l given.1 :: rest))) := by
    have hfront : ∀ p ∈ [.token word, target, .token event], p.isA .arguments = false := by
      simp only [List.forall_mem_cons]
      exact ⟨rfl, Tree.isA_ne isPath (by simp), rfl, nofun⟩
    have hargs : argumentsOf e (.token word :: target :: .token event :: .node .arguments l row :: rest) =
        suppliedBy e [] row >>= fun out => pure (some (.node .arguments l out.1), out.2) :=
      argumentsOf_front _ hfront
    have hput (given : Tree) : Tree.putFirst .arguments (some given)
        (.token word :: target :: .token event :: .node .arguments l row :: rest) =
          .token word :: target :: .token event :: given :: rest :=
      (putFirst_front _ hfront).trans (by rw [putFirst_here rfl]; rfl)
    have hroot (ts : List Tree) : ((.token word :: target :: ts).find? (·.isA .path)).bind Tree.firstToken? =
        some root := by
      rw [List.find?_cons_of_neg (by simp [Tree.isA, Tree.rule?]), List.find?_cons_of_pos isPath]
      exact rooted
    rw [statement]
    simp only [hargs, hput, hroot, bind_assoc, pure_bind]
  have hfront (row : List Tree) :
      ∀ p ∈ [.token word, target, .token event, .node .arguments l row], p.isA .block = false := by
    simp only [List.forall_mem_cons]
    exact ⟨rfl, Tree.isA_ne isPath (by simp), rfl, rfl, nofun⟩
  intro s out s' hrun
  rw [hstatement] at hrun
  obtain ⟨given, u, hgiven, hrun⟩ := bind_ok_iff.1 hrun
  obtain ⟨ty, v, hty, hrun⟩ := bind_ok_iff.1 hrun
  obtain ⟨_, w, hpush, hrun⟩ := bind_ok_iff.1 hrun
  obtain ⟨_, x, hdeclare, hrun⟩ := bind_ok_iff.1 hrun
  obtain ⟨body, y, hbody, hrun⟩ := bind_ok_iff.1 hrun
  obtain ⟨_, z, hpop, hrun⟩ := bind_ok_iff.1 hrun
  obtain ⟨rfl, rfl⟩ := pure_ok_iff.1 hrun
  obtain ⟨hturned, hagain⟩ := hr.supplied e [] hgiven
  obtain ⟨hrest, hblock⟩ := hblock.putBlock [.token word, target, .token event, .node .arguments l row]
    bodyOf_find (hfront row) hbody
  obtain ⟨hmade, hbody, hput⟩ := hblock
    [.token word, target, .token event, .node .arguments l given.1] (hfront given.1)
  simp only [List.cons_append, List.nil_append] at hmade hbody hput
  have hparts : TurnedAll (.token word :: target :: .token event :: .node .arguments l row :: rest)
      (.token word :: target :: .token event :: .node .arguments l given.1 :: Tree.putFirst .block body rest) :=
    .cons .token (.cons (.refl target) (.cons .token (.cons (.node hturned) hrest)))
  rw [← hparts.declareOutput] at hdeclare
  rw [id, hmade, hstatement, hparts.nameOf?]
  refine ⟨.node hparts, bind_ok_iff.2 ⟨given, u, hagain, bind_ok_iff.2 ⟨ty, v, hty,
    bind_ok_iff.2 ⟨_, w, hpush, bind_ok_iff.2 ⟨_, x, hdeclare, bind_ok_iff.2 ⟨body, y, hbody,
      bind_ok_iff.2 ⟨_, z, hpop, pure_ok_iff.2 ⟨by rw [hput], rfl⟩⟩⟩⟩⟩⟩⟩⟩

theorem stable_import : Stable Turned id (statement e) (.node .importStatement line ps) := by
  cases hname : nameOf? ps with
  | none => exact .kept (.refl _) rfl (by rw [statement, hname])
  | some name =>
    refine .before (x := declare name.literal .anyObject (Tree.line? (.node .importStatement line ps))
      name.position) (f := fun _ t => pure t) (.refl _) (fun _ => .kept (.refl _) rfl rfl) fun t' ht => ?_
    obtain ⟨ps', rfl, hps⟩ := ht.of_node (by simp)
    rw [statement, hps.nameOf?, hname, ← ht.line?]

/-- Statements are checked again as they were. -/
theorem stableStatement_of_formed (h : Formed Token.Sound g .plain t) : StableStatement t := by
  induction h with
  | token u => exact ⟨stableTree_of_formed (g := g) (.token u), fun e => .kept .token rfl rfl, .nil⟩
  | @node rule line ps content own parts ih =>
    have hf : Formed Token.Sound g .plain (.node rule line ps) := .node content own parts
    have tree : StableTree (.node rule line ps) := stableTree_of_formed hf
    have trees : ∀ p ∈ ps, StableTree p := fun p hp => stableTree_of_formed (parts p hp)
    have bodies : StableBodies ps := .of ih
    refine ⟨tree, fun e => ?_, bodies⟩
    cases rule with
    | assignment =>
      cases content with
      | @assignment _ target sign v isPath value =>
        have hnode : v.isNode = true := by
          rcases value with value | value
          · exact isNode_of_fits value
          · cases v with
            | token u => cases value
            | node => rfl
        have rooted : target.firstToken?.isSome = true :=
          (parts target (by simp)).hasToken (Tree.isA_ne isPath (by simp)) (Tree.isA_ne isPath (by simp))
        exact .node (f := fun ps => pure (.node .assignment line ps))
          (stable_assignment (trees _ (by simp)) (trees _ (by simp)) isPath rooted hnode)
          (fun _ => gives_pure rfl) fun ps' _ => by rw [statement]
    | serviceCall => exact stable_call hf (.inl rfl) trees (bodies.blockOf e)
    | mutation => exact stable_call hf (.inr rfl) trees (bodies.blockOf e)
    | functionCall | expressionStatement =>
      exact .behind (f := fun out => pure out.1) (.refl _) (tree.value e) (fun _ => gives_pure rfl)
        fun t' ht => by
          obtain ⟨ps', rfl, -⟩ := ht.of_node (by simp)
          rw [statement]
    | ifBlock =>
      exact .node (f := fun ps => pure (.node .ifBlock line ps)) (bodies.branches e)
        (fun _ => gives_pure rfl) fun ps' _ => by rw [statement]
    | tryBlock =>
      exact .node (f := fun ps => pure (.node .tryBlock line ps)) (bodies.handlers e)
        (fun _ => gives_pure rfl) fun ps' _ => by rw [statement]
    | returnStatement =>
      have hrow : Stable TurnedAll id (returned e) ps := by
        cases content with
        | returnAlone => exact .kept (TurnedAll.refl _) rfl rfl
        | returnValue value => exact stable_returned (trees _ (by simp)) (isNode_of_fits value)
      exact .node (f := fun ps => pure (.node .returnStatement line ps)) hrow (fun _ => gives_pure rfl)
        fun ps' _ => by rw [statement]
    | throwStatement =>
      have hrow : Stable TurnedAll id
          (fun ps => nodeValue e 0 ps >>= fun out => pure (Tree.putNode out.1 0 ps)) ps := by
        cases content with
        | throwAlone => exact .kept (TurnedAll.refl _) rfl rfl
        | throwValue value => exact stable_throw (trees _ (by simp)) (isNode_of_fits value)
      refine .node (f := fun ps => pure (.node .throwStatement line ps)) hrow (fun _ => gives_pure rfl)
        fun ps' _ => ?_
      rw [statement, bind_assoc]
      simp only [pure_bind]
    | importStatement => exact stable_import
    | whileBlock =>
      cases content with
      | whileBlock fits block => exact stable_while (trees _ (by simp)) fits (bodies.blockOf e)
    | foreachBlock =>
      cases content with
      | foreachBlock fits output block => exact stable_foreach (trees _ (by simp)) fits (bodies.bodyOf e)
    | functionBlock => exact stable_function parts bodies.bodyOf
    | whenBlock =>
      have hwhen {word event : Token} {target given : Tree} {rest : List Tree}
          (isPath : target.isA .path = true) (arguments : given.isA .arguments = true)
          (hps : ps = .token word :: target :: .token event :: given :: rest) :
          Stable Turned id (statement e) (.node .whenBlock line ps) := by
        subst hps
        obtain ⟨l, row, rfl⟩ := Tree.isA_iff.1 arguments
        obtain ⟨root, rooted⟩ := Option.isSome_iff_exists.1 ((parts target (by simp)).hasToken
          (Tree.isA_ne isPath (by simp)) (Tree.isA_ne isPath (by simp)))
        exact stable_when isPath rooted (trees (.node .arguments l row) (by simp)).row (bodies.bodyOf e)
      cases content with
      | whenBlock isPath arguments block => exact hwhen isPath arguments rfl
      | whenAs isPath arguments output block => exact hwhen isPath arguments rfl
    | _ => exact .kept (.refl _) rfl rfl

/-! ## Stories -/

/-- Functions are declared alike. -/
theorem Turned.signature (h : Turned t t') (hf : Formed Token.Sound g .plain t)
    (ht : t.isA .functionBlock = true) (functions : NameMap Signature) :
    signature functions t' = signature functions t := by
  obtain ⟨l, ps, rfl⟩ := Tree.isA_iff.1 ht
  obtain ⟨ps', rfl, hps⟩ := h.of_node (by simp)
  obtain _ | ⟨-, -, parts⟩ := hf
  obtain ⟨hparameters, hreturns⟩ := TurnedAll.declared hps parts
  have hname : (Tree.node .functionBlock l ps').token? .name = (Tree.node .functionBlock l ps).token? .name :=
    TurnedAll.nameOf? hps
  have hparameters : (Tree.node .functionBlock l ps').findAll .parameter =
      (Tree.node .functionBlock l ps).findAll .parameter := hparameters
  have hreturns : (Tree.node .functionBlock l ps').find? .returns =
      (Tree.node .functionBlock l ps).find? .returns := hreturns
  unfold Check.signature
  rw [hname, hparameters, hreturns, h.line?]

theorem Turned.signatures (h : Turned t t') (hf : ∀ n ∈ t.walk, n.isA .functionBlock = true → Formed Token.Sound g .plain n) :
    signatures t' = signatures t := by
  have hfold {us us' : List Tree} (hu : TurnedAll us us') (hf : ∀ u ∈ us, Formed Token.Sound g .plain u)
      (hr : ∀ u ∈ us, u.isA .functionBlock = true) (functions : NameMap Signature) :
      us'.foldlM Check.signature functions = us.foldlM Check.signature functions := by
    induction hu generalizing functions with
    | nil => rfl
    | cons hu _ ih =>
      simp only [List.forall_mem_cons] at hf hr
      rw [List.foldlM_cons, List.foldlM_cons, hu.signature hf.1 hr.1]
      exact bind_congr fun functions => ih hf.2 hr.2 functions
  refine hfold (Turned.functions t t' h) (fun u hu => ?_) (fun u hu => (List.mem_filter.1 hu).2) _
  obtain ⟨hmem, hrule⟩ := List.mem_filter.1 hu
  exact hf u hmem hrule

theorem stable_tree {features : Features} {registry : Option Registry}
    (hf : ∀ p ∈ ps, Formed Token.Sound g .plain p) :
    Stable Turned Prod.fst (tree features registry) (.of .start ps) := by
  have hwalk : ∀ n ∈ (Tree.of .start ps).walk, n.isA .functionBlock = true → Formed Token.Sound g .plain n := by
    intro n hn hrule
    obtain rfl | ⟨p, hp, hn⟩ : n = .of .start ps ∨ ∃ p ∈ ps, n ∈ p.walk := by
      simpa [Tree.walk, Tree.walkAll_eq] using hn
    · cases hrule
    · exact (hf p hp).of_mem_walk n hn
  have bodies : StableBodies ps := .of fun p hp => stableStatement_of_formed (hf p hp)
  intro s out s' hrun
  obtain ⟨functions, u, hfunctions, hrun⟩ := bind_ok_iff.1 hrun
  obtain ⟨_, v, hpush, hrun⟩ := bind_ok_iff.1 hrun
  obtain ⟨made, w, hmade, hrun⟩ := bind_ok_iff.1 hrun
  obtain ⟨rfl, rfl⟩ := pure_ok_iff.1 hrun
  obtain ⟨hturned, hagain⟩ := bodies.statements _ .open hmade
  have hnode : Turned (.of .start ps) (.of .start made) := .node hturned
  refine ⟨hnode, bind_ok_iff.2 ⟨functions, u, ?_, bind_ok_iff.2 ⟨_, v, hpush,
    bind_ok_iff.2 ⟨made, w, hagain, rfl⟩⟩⟩⟩
  rw [hnode.signatures hwalk]
  exact hfunctions

/-- A plain story that was checked is as it was, save that calls of services have turned into
mutations, and checking it again changes nothing and finds out the same. -/
theorem stable_story {features : Features} {registry : Option Registry} {root : Scope} {analysis : Analysis}
    (hf : ∀ p ∈ ps, Formed Token.Sound g .plain p)
    (hrun : story features registry root (.of .start ps) = .ok (t', analysis)) :
    Turned (.of .start ps) t' ∧ story features registry root t' = .ok (t', analysis) := by
  unfold story at hrun ⊢
  cases htree : tree features registry (.of .start ps)
      { scopes := .ofRoot root, reports := [], services := .empty } with
  | error fault =>
    rw [htree] at hrun
    cases hrun
  | ok out =>
    obtain ⟨hturned, hagain⟩ := stable_tree hf htree
    rw [htree] at hrun
    obtain ⟨⟨t, functions⟩, s⟩ := out
    obtain ⟨rfl, rfl⟩ := Prod.mk.inj (Except.ok.inj hrun)
    dsimp only at hturned hagain
    rw [hagain]
    exact ⟨hturned, rfl⟩

/-- Checking a story is stable: whatever is known beforehand, the tree differs afterwards in calls
of services only that have turned into mutations with the same tokens, and checking that tree leaves
it as it is and finds out the same. Only a registry that fails keeps a story from being checked. -/
theorem story_again {m : ScanMode} {text : List Char} {tokens : List Token} (hg : m.grammar.Accepted)
    (hs : (scan m text).tokens = .ok tokens) (ht : Story.hoistedTreeOf m tokens = .ok t)
    (features : Features) (registry : Option Registry) (root : Scope) :
    match story features registry root t with
    | .ok (t', analysis) =>
      Turned t t' ∧ t'.yield = t.yield ∧ story features registry root t' = .ok (t', analysis)
    | .error _ => registry = some .failing := by
  have h := Story.hoistedTreeOf_gives hg.keepsLayout hs
  rw [ht] at h
  obtain ⟨trees, lines, rfl, hp⟩ := h
  have hretold := @story_retold _ trees features registry root fun p hp' => (hp.formed p hp').1
  cases hrun : story features registry root (.of .start trees) with
  | error fault =>
    rw [hrun] at hretold
    exact hretold
  | ok out =>
    obtain ⟨t', analysis⟩ := out
    obtain ⟨hturned, hagain⟩ := stable_story (fun p hp' => (hp.formed p hp').1) hrun
    exact ⟨hturned, Turned.yield _ _ hturned, hagain⟩

/-- A list is sorted by what is written like a call of a service, in a function as well. -/
theorem story_again_sorted : Grammar.builtIn.Accepted ∧ ∃ tokens t t' analysis,
    (scan ⟨.builtIn, false⟩ "function f a:List[int]\n    a sort\nb = [2, 1]\nb sort\nc d\n".toList).tokens =
      .ok tokens ∧
    Story.hoistedTreeOf ⟨.builtIn, false⟩ tokens = .ok t ∧
    story .off none .empty t = .ok (t', analysis) ∧ t' ≠ t ∧
    Turned t t' ∧ t'.yield = t.yield ∧ story .off none .empty t' = .ok (t', analysis) := by
  have hrun : ((scan ⟨.builtIn, false⟩
      "function f a:List[int]\n    a sort\nb = [2, 1]\nb sort\nc d\n".toList).tokens.toOption.bind fun tokens =>
        (Story.hoistedTreeOf ⟨.builtIn, false⟩ tokens).toOption.bind fun t =>
          (story .off none .empty t).toOption.map fun out => decide (out.1 ≠ t)) = some true := by
    decide +kernel
  obtain ⟨tokens, hts, hrun⟩ := Option.bind_eq_some_iff.1 hrun
  obtain ⟨t, ht, hrun⟩ := Option.bind_eq_some_iff.1 hrun
  obtain ⟨⟨t', analysis⟩, hstory, hne⟩ := Option.map_eq_some_iff.1 hrun
  rw [toOption_eq_some] at hts ht hstory
  have h := story_again .builtIn hts ht .off none .empty
  rw [hstory] at h
  exact ⟨.builtIn, tokens, t, t', analysis, hts, ht, hstory, of_decide_eq_true hne, h⟩

end StoryLang.Check
