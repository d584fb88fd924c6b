/-
Checking a value again.

What a check gives back of a tree is settled: checked from the same state, it
turns into nothing else, and the check ends in the same state and with the
same type. Only a call of a service that turned into a mutation is checked in
another way then, and its subject and its arguments are checked alike in both.
-/
import StoryLang.Proofs.Check.Arguments
import StoryLang.Proofs.Check.Stays
import StoryLang.Proofs.Check.Retold
import StoryLang.Proofs.Check.Statement

namespace StoryLang.Check

variable {α β γ δ : Type} {g : Grammar} {rule : Rule} {line : Option Coord} {t : Tree} {ps ts : List Tree}

/-! ## Checks that are done again -/

/-- What the check gives back for `a` has turned from it, and the check of that does the same. -/
def Stable (R : α → α → Prop) (part : γ → α) (check : α → Check γ) (a : α) : Prop :=
  ∀ ⦃s : State⦄ ⦃out : γ⦄ ⦃s' : State⦄, check a s = .ok (out, s') →
    R a (part out) ∧ check (part out) s = .ok (out, s')

/-- The same for a check of the first part of a rule in a row. -/
def StableFirst (rule : Rule) (part : γ → Option Tree) (check : List Tree → Check γ) (ps : List Tree) :
    Prop :=
  ∀ ⦃s : State⦄ ⦃out : γ⦄ ⦃s' : State⦄, check ps s = .ok (out, s') →
    Option.Rel Turned (ps.find? (·.isA rule)) (part out) ∧ check (part out).toList s = .ok (out, s')

/-- The part is put back among others, and that row is checked alike with whatever is in front. -/
theorem StableFirst.put {part : γ → Option Tree} {check : List Tree → Check γ} {rest : List Tree}
    {s s' : State} {out : γ} (front : List Tree) (h : StableFirst rule part check (front ++ rest))
    (hfind : ∀ ps, check ps = check (ps.find? (·.isA rule)).toList) (hr : rule.stays = true)
    (hfront : ∀ p ∈ front, p.isA rule = false) (hrun : check (front ++ rest) s = .ok (out, s')) :
    TurnedAll rest (Tree.putFirst rule (part out) rest) ∧
      ∀ front', (∀ p ∈ front', p.isA rule = false) →
        check (front' ++ Tree.putFirst rule (part out) rest) s = .ok (out, s') ∧
          Tree.putFirst rule (part out) (front' ++ Tree.putFirst rule (part out) rest) =
            front' ++ Tree.putFirst rule (part out) rest := by
  obtain ⟨hturned, hagain⟩ := h hrun
  have hskip {front : List Tree} (hfront : ∀ p ∈ front, p.isA rule = false) (ps : List Tree) :
      (front ++ ps).find? (·.isA rule) = ps.find? (·.isA rule) := by
    rw [List.find?_append, List.find?_eq_none.2 (by simpa using hfront), Option.none_or]
  rw [hskip hfront] at hturned
  refine ⟨.putFirst hturned, fun front' hfront' => ?_⟩
  have hput := find?_putFirst hturned hr
  refine ⟨?_, by rw [putFirst_front front' hfront', putFirst_found hput]⟩
  rw [hfind, hskip hfront', hput]
  exact hagain

theorem pure_ok_iff {a b : α} {s s' : State} :
    (pure a : Check α) s = .ok (b, s') ↔ a = b ∧ s = s' := by
  change (Except.ok (a, s) : Except Fault (α × State)) = _ ↔ _
  simp

namespace Stable

variable {R : α → α → Prop} {part : γ → α} {check check' : α → Check γ} {a : α}

theorem kept {x : γ} (hR : R a a) (hx : part x = a) (h : check a = pure x) : Stable R part check a := by
  intro s out s' hrun
  rw [h] at hrun
  obtain ⟨rfl, rfl⟩ := pure_ok_iff.1 hrun
  rw [hx]
  exact ⟨hR, congrFun h s⟩

/-- What is done before does not depend on what has turned. -/
theorem before {x : Check β} {f : β → α → Check γ} (hR : R a a) (h : ∀ b, Stable R part (f b) a)
    (he : ∀ a', R a a' → check a' = x >>= fun b => f b a') : Stable R part check a := by
  intro s out s' hrun
  rw [he a hR] at hrun
  obtain ⟨b, u, hx, hrun⟩ := bind_ok_iff.1 hrun
  obtain ⟨hturned, hagain⟩ := h b hrun
  rw [he _ hturned]
  exact ⟨hturned, bind_ok_iff.2 ⟨b, u, hx, hagain⟩⟩

/-- What is done behind depends on what was given back only. -/
theorem behind {part' : β → α} {inner : α → Check β} {f : β → Check γ} (hR : R a a)
    (h : Stable R part' inner a) (hpart : ∀ b, Gives (fun out => part out = part' b) (f b))
    (he : ∀ a', R a a' → check a' = inner a' >>= f) : Stable R part check a := by
  intro s out s' hrun
  rw [he a hR] at hrun
  obtain ⟨b, u, hinner, hrun⟩ := bind_ok_iff.1 hrun
  obtain ⟨hturned, hagain⟩ := h hinner
  rw [hpart b u out s' hrun, he _ hturned]
  exact ⟨hturned, bind_ok_iff.2 ⟨b, u, hagain, hrun⟩⟩

/-- A node whose parts are checked, with something behind that. -/
theorem node {part : γ → Tree} {part' : β → List Tree} {check : Tree → Check γ}
    {row : List Tree → Check β} {f : β → Check γ} (h : Stable TurnedAll part' row ps)
    (hpart : ∀ b, Gives (fun out => part out = .node rule line (part' b)) (f b))
    (he : ∀ ps', TurnedAll ps ps' → check (.node rule line ps') = row ps' >>= f) :
    Stable Turned part check (.node rule line ps) := by
  intro s out s' hrun
  rw [he ps (TurnedAll.refl ps)] at hrun
  obtain ⟨b, u, hrow, hrun⟩ := bind_ok_iff.1 hrun
  obtain ⟨hturned, hagain⟩ := h hrow
  rw [hpart b u out s' hrun, he _ hturned]
  exact ⟨.node hturned, bind_ok_iff.2 ⟨b, u, hagain, hrun⟩⟩

/-- A row whose first tree is checked and then the others. -/
theorem cons {part : γ → List Tree} {part' : β → Tree} {part'' : δ → List Tree} {p : Tree}
    {check : List Tree → Check γ} {first : Tree → Check β} {rest : β → List Tree → Check δ}
    (made : β → δ → γ) (h : Stable Turned part' first p)
    (hs : ∀ b, Stable TurnedAll part'' (rest b) ps)
    (hpart : ∀ b d, part (made b d) = part' b :: part'' d)
    (he : ∀ q qs, Turned p q → check (q :: qs) = first q >>= fun b => rest b qs >>= fun d =>
      pure (made b d)) : Stable TurnedAll part check (p :: ps) := by
  intro s out s' hrun
  rw [he p ps (Turned.refl p)] at hrun
  obtain ⟨b, u, hfirst, hrun⟩ := bind_ok_iff.1 hrun
  obtain ⟨d, v, hrest, hrun⟩ := bind_ok_iff.1 hrun
  obtain ⟨rfl, rfl⟩ := pure_ok_iff.1 hrun
  obtain ⟨hturned, hagain⟩ := h hfirst
  obtain ⟨hturneds, hagains⟩ := hs b hrest
  rw [hpart, he _ _ hturned]
  exact ⟨.cons hturned hturneds, bind_ok_iff.2 ⟨b, u, hagain, bind_ok_iff.2 ⟨d, v, hagains, rfl⟩⟩⟩

/-- A row with a node in front, the parts of which are checked and then the others. -/
theorem inside {part : γ → List Tree} {part' : β → List Tree} {part'' : δ → List Tree}
    {inner : List Tree} {check : List Tree → Check γ} {row : List Tree → Check β}
    {rest : β → List Tree → Check δ} (made : β → δ → γ) (h : Stable TurnedAll part' row inner)
    (hs : ∀ b, Stable TurnedAll part'' (rest b) ps)
    (hpart : ∀ b d, part (made b d) = .node rule line (part' b) :: part'' d)
    (he : ∀ inner' qs, TurnedAll inner inner' → check (.node rule line inner' :: qs) =
      row inner' >>= fun b => rest b qs >>= fun d => pure (made b d)) :
    Stable TurnedAll part check (.node rule line inner :: ps) := by
  intro s out s' hrun
  rw [he inner ps (TurnedAll.refl inner)] at hrun
  obtain ⟨b, u, hrow, hrun⟩ := bind_ok_iff.1 hrun
  obtain ⟨d, v, hrest, hrun⟩ := bind_ok_iff.1 hrun
  obtain ⟨rfl, rfl⟩ := pure_ok_iff.1 hrun
  obtain ⟨hturned, hagain⟩ := h hrow
  obtain ⟨hturneds, hagains⟩ := hs b hrest
  rw [hpart, he _ _ hturned]
  exact ⟨.cons (.node hturned) hturneds,
    bind_ok_iff.2 ⟨b, u, hagain, bind_ok_iff.2 ⟨d, v, hagains, rfl⟩⟩⟩

/-- A row whose first tree is passed over. -/
theorem pass {part : γ → List Tree} {check : List Tree → Check γ} {p : Tree} (made : γ → γ)
    (h : Stable TurnedAll part check ps) (hpart : ∀ out, part (made out) = p :: part out)
    (he : ∀ qs, check (p :: qs) = check qs >>= fun out => pure (made out)) :
    Stable TurnedAll part check (p :: ps) := by
  intro s out s' hrun
  rw [he ps] at hrun
  obtain ⟨out', u, hrest, hrun⟩ := bind_ok_iff.1 hrun
  obtain ⟨rfl, rfl⟩ := pure_ok_iff.1 hrun
  obtain ⟨hturned, hagain⟩ := h hrest
  rw [hpart, he]
  exact ⟨.cons (Turned.refl p) hturned, bind_ok_iff.2 ⟨out', u, hagain, rfl⟩⟩

end Stable

/-! ## Rows -/

/-- What checking a row of parts again does, whichever way it is followed. -/
structure StableRow (ps : List Tree) : Prop where
  firsts : ∀ e n, Stable TurnedAll Prod.fst (firsts e n) ps
  entries : ∀ e, Stable TurnedAll Prod.fst (entries e) ps
  fragments : ∀ e ty, Stable TurnedAll Prod.fst (fragments e ty) ps
  arguments : ∀ e, StableFirst .arguments Prod.fst (argumentsOf e) ps
  supplied : ∀ e seen, Stable TurnedAll Prod.fst (suppliedBy e seen) ps
  links : ∀ e ty, Stable TurnedAll Prod.fst (links e ty) ps

structure StableTree (t : Tree) : Prop where
  value : ∀ e, Stable Turned Prod.fst (value e) t
  row : StableRow t.parts

/-- A check that passes over what is not of a rule checks the first node of the rule. -/
theorem find_of_other {check : List Tree → Check γ}
    (here : ∀ l inner ps, check (.node rule l inner :: ps) = check [.node rule l inner])
    (token : ∀ u ps, check (.token u :: ps) = check ps)
    (other : ∀ r l inner ps, r ≠ rule → check (.node r l inner :: ps) = check ps) (ps : List Tree) :
    check ps = check (ps.find? (·.isA rule)).toList := by
  induction ps with
  | nil => rfl
  | cons p ps ih =>
    cases hp : p.isA rule with
    | true =>
      obtain ⟨line, inner, rfl⟩ := Tree.isA_iff.1 hp
      rw [List.find?_cons_of_pos hp, here]
      rfl
    | false =>
      rw [List.find?_cons_of_neg (by simp [hp]), ← ih]
      cases p with
      | token u => exact token u ps
      | node r line inner => exact other r line inner ps (by simpa [Tree.isA, Tree.rule?] using hp)

theorem argumentsOf_find {e : Env} (ps : List Tree) :
    argumentsOf e ps = argumentsOf e (ps.find? (·.isA .arguments)).toList :=
  find_of_other (fun _ _ _ => rfl) (fun _ _ => rfl) (fun _ _ _ _ hr => argumentsOf_other hr) ps

/-- The arguments of a call, and the call with them put back. -/
theorem StableRow.given (h : StableRow ps) {e : Env} {given : Option Tree} {supplied : List Supplied}
    {s s' : State} (hrun : argumentsOf e ps s = .ok ((given, supplied), s')) :
    TurnedAll ps (Tree.putFirst .arguments given ps) ∧
      argumentsOf e (Tree.putFirst .arguments given ps) s = .ok ((given, supplied), s') ∧
      Tree.putFirst .arguments given (Tree.putFirst .arguments given ps) =
        Tree.putFirst .arguments given ps := by
  obtain ⟨hturned, hagain⟩ := StableFirst.put [] (h.arguments e)
    argumentsOf_find rfl nofun hrun
  exact ⟨hturned, hagain [] nofun⟩

/-- A link of a mutation, with its arguments put back. -/
theorem StableRow.linked (h : StableRow ps) (e : Env) (ty : Ty) :
    Stable TurnedAll Prod.fst (fun ps => argumentsOf e ps >>= fun given =>
      mutationCall ty (nameOf? ps) given.2 >>= fun ty =>
        pure (Tree.putFirst .arguments given.1 ps, ty)) ps := by
  intro s out s' hrun
  obtain ⟨given, u, hgiven, hrun⟩ := bind_ok_iff.1 hrun
  obtain ⟨made, v, hmade, hrun⟩ := bind_ok_iff.1 hrun
  obtain ⟨rfl, rfl⟩ := pure_ok_iff.1 hrun
  obtain ⟨hturned, hagain, hput⟩ := h.given hgiven
  refine ⟨hturned, bind_ok_iff.2 ⟨given, u, hagain, bind_ok_iff.2 ⟨made, v, ?_, ?_⟩⟩⟩
  · rw [hturned.nameOf?, hmade]
  · rw [hput]
    rfl

theorem StableRow.nil : StableRow [] where
  firsts e n := by cases n <;> exact .kept .nil rfl rfl
  entries e := .kept .nil rfl rfl
  fragments e ty := .kept .nil rfl rfl
  arguments e s out s' h := by
    obtain ⟨rfl, rfl⟩ := pure_ok_iff.1 h
    exact ⟨.none, rfl⟩
  supplied e seen := .kept .nil rfl rfl
  links e ty := .kept .nil rfl rfl

theorem StableRow.token {u : Token} (h : StableRow ps) : StableRow (.token u :: ps) where
  firsts e n := (h.firsts e n).pass (fun out => (.token u :: out.1, out.2)) (fun _ => rfl) fun _ => by
    rw [Check.firsts]
  entries e := (h.entries e).pass (fun out => (.token u :: out.1, out.2)) (fun _ => rfl) fun _ => rfl
  fragments e ty := (h.fragments e ty).pass (fun out => (.token u :: out.1, out.2)) (fun _ => rfl) fun _ => rfl
  arguments e _ _ _ hrun := h.arguments e hrun
  supplied e seen := (h.supplied e seen).pass (fun out => (.token u :: out.1, out.2)) (fun _ => rfl) fun _ => rfl
  links e ty := (h.links e ty).pass (fun out => (.token u :: out.1, out.2)) (fun _ => rfl) fun _ => rfl

theorem StableRow.node {inner : List Tree} (ht : StableTree (.node rule line inner))
    (h : StableRow ps) : StableRow (.node rule line inner :: ps) where
  firsts e n := by
    cases n with
    | zero => exact .kept (TurnedAll.refl _) rfl (by rw [Check.firsts]; simp)
    | succ n =>
      refine .cons (fun v rest => (v.1 :: rest.1, v.2 :: rest.2)) (ht.value e)
        (fun _ => h.firsts e n) (fun _ _ => rfl) fun q qs hq => ?_
      obtain ⟨rule', inner', rfl⟩ := hq.node_iff
      rw [Check.firsts]
  entries e := by
    refine .inside (fun v rest => (.node rule line v.1 :: rest.1,
      (v.2.getD 0 .any, v.2.getD 1 .any) :: rest.2)) (ht.row.firsts e 2)
      (fun _ => h.entries e) (fun _ _ => rfl) fun inner' qs _ => ?_
    rw [Check.entries]
  fragments e ty := by
    cases hdot : (tokensOf inner).any (·.kind = .symbol .dot) with
    | true =>
      have hfield : Stable TurnedAll Prod.fst (fun inner' =>
          (nameOf? inner').elim (pure ty) (fieldType ty) >>= fun ty => pure (inner', ty)) inner :=
        .before (TurnedAll.refl _) (fun ty => .kept (TurnedAll.refl _) rfl rfl) fun inner' hq => by
          rw [hq.nameOf?]
      refine .inside (fun v rest => (.node rule line v.1 :: rest.1, rest.2)) hfield
        (fun v => h.fragments e v.2) (fun _ _ => rfl) fun inner' qs hq => ?_
      rw [Check.fragments, if_pos (by rw [hq.tokensOf]; exact hdot)]
      cases nameOf? inner' with
      | none => rfl
      | some name => simp only [Option.elim_some, bind_assoc, pure_bind]
    | false =>
      have hindex : Stable TurnedAll Prod.fst (fun inner' => Check.firsts e 1 inner' >>= fun out =>
          indexType ty (out.2.getD 0 .any) ((Tree.firstTokenOf? inner).map (·.position)) >>= fun ty =>
            pure (out.1, ty)) inner :=
        .behind (TurnedAll.refl _) (ht.row.firsts e 1)
          (fun _ => .after fun _ => gives_pure rfl) fun _ _ => rfl
      refine .inside (fun v rest => (.node rule line v.1 :: rest.1, rest.2)) hindex
        (fun v => h.fragments e v.2) (fun _ _ => rfl) fun inner' qs hq => ?_
      rw [Check.fragments, if_neg (by rw [hq.tokensOf, hdot]; simp)]
      simp only [bind_assoc, pure_bind, hq.firstTokenOf?]
  arguments e s out s' hrun := by
    by_cases hr : rule = .arguments
    · subst hr
      rw [argumentsOf] at hrun
      obtain ⟨row, u, hrow, hrun⟩ := bind_ok_iff.1 hrun
      obtain ⟨rfl, rfl⟩ := pure_ok_iff.1 hrun
      obtain ⟨hturned, hagain⟩ := ht.row.supplied e [] hrow
      refine ⟨.some (.node hturned), ?_⟩
      rw [Option.toList_some, argumentsOf]
      exact bind_ok_iff.2 ⟨row, u, hagain, rfl⟩
    · rw [argumentsOf_other hr] at hrun
      rw [List.find?_cons_of_neg (by simp [Tree.isA, Tree.rule?, hr])]
      exact h.arguments e hrun
  supplied e seen := by
    cases hname : Tree.firstTokenOf? inner with
    | none =>
      refine (h.supplied e seen).pass (fun out => (.node rule line inner :: out.1, out.2)) (fun _ => rfl)
        fun qs => ?_
      rw [suppliedBy, hname]
    | some name =>
      have hvalue : Stable TurnedAll Prod.fst (fun inner' =>
          (if seen.contains name.literal then report .repeatedArgument [name.literal] (some name.position)
            else pure ()) >>= fun _ => Check.firsts e 1 inner') inner :=
        .before (TurnedAll.refl _) (fun _ => ht.row.firsts e 1) fun _ _ => rfl
      refine .inside (fun v rest => (.node rule line v.1 :: rest.1,
        (⟨name.literal, v.2.getD 0 .any, name.position⟩ : Supplied) :: rest.2)) hvalue
        (fun _ => h.supplied e (name.literal :: seen)) (fun _ _ => rfl) fun inner' qs hq => ?_
      rw [suppliedBy_argument (hq.firstTokenOf?.trans hname), bind_assoc]
  links e ty := by
    by_cases hr : rule = .mutationFragment
    · subst hr
      refine .inside (fun v rest => (.node .mutationFragment line v.1 :: rest.1, rest.2))
        (ht.row.linked e ty) (fun v => h.links e v.2) (fun _ _ => rfl) fun inner' qs _ => ?_
      rw [Check.links]
      simp only [bind_assoc, pure_bind]
    · exact (h.links e ty).pass (fun out => (.node rule line inner :: out.1, out.2)) (fun _ => rfl)
        fun qs => links_other hr ty

theorem StableRow.of (h : ∀ p ∈ ps, StableTree p) : StableRow ps := Tree.byRow h .nil .token .node

/-! ## Calls -/

/-- What is no link is passed over. -/
theorem links_none {e : Env} {ty : Ty} (h : ∀ p ∈ ts, p.isA .mutationFragment = false) :
    links e ty ts = pure (ts, ty) := by
  induction ts with
  | nil => rfl
  | cons p ts ih =>
    simp only [List.forall_mem_cons] at h
    cases p with
    | token u =>
      rw [links, ih h.2, pure_bind]
      simp
    | node r l inner =>
      rw [links_other (by rintro rfl; simp [Tree.isA, Tree.rule?] at h), ih h.2, pure_bind]

/-- A mutation with one link: its subject is checked and then the arguments of the link. -/
theorem value_mutation {e : Env} {subject : Tree} {link : Option Coord} {extra : List Tree}
    (hn : subject.isNode = true) (hx : ∀ p ∈ extra, p.isA .mutationFragment = false) :
    value e (.node .mutation line (subject :: .node .mutationFragment link ps :: extra)) =
      value e subject >>= fun v => argumentsOf e ps >>= fun given =>
        mutationCall v.2 (nameOf? ps) given.2 >>= fun ty =>
          pure (.node .mutation line
            (v.1 :: .node .mutationFragment link (Tree.putFirst .arguments given.1 ps) :: extra), ty) := by
  cases subject with
  | token u => cases hn
  | node r l inner =>
    rw [value, mutation]
    simp only [links, links_none hx, bind_assoc, pure_bind]

theorem argumentsOf_named {e : Env} {name : Token} {l : Option Coord} {row : List Tree} :
    argumentsOf e (.token name :: .node .arguments l row :: ts) =
      suppliedBy e [] row >>= fun given => pure (some (.node .arguments l given.1), given.2) :=
  argumentsOf_front [.token name] (by simp [Tree.isA, Tree.rule?])

theorem putFirst_named {name : Token} {l : Option Coord} {row : List Tree} {given : Tree} :
    Tree.putFirst .arguments (some given) (.token name :: .node .arguments l row :: ts) =
      .token name :: given :: ts :=
  (putFirst_front [.token name] (by simp [Tree.isA, Tree.rule?])).trans
    (by rw [putFirst_here rfl]; rfl)

theorem nameOf?_named {name : Token} (named : name.kind = .name) :
    nameOf? (.token name :: ts) = some name :=
  nameOf?_front [name] (by simp [named])

/-- A call that is a mutation: its path is checked and then its arguments. -/
theorem callAsMutation_called {e : Env} {path : Tree} {name : Token} {l : Option Coord}
    {row extra : List Tree} (isPath : path.isA .path = true) (named : name.kind = .name)
    (hx : ∀ p ∈ extra, inLink p = false ∧ p.isA .mutationFragment = false) :
    callAsMutation e (path :: .token name :: .node .arguments l row :: extra) =
      value e path >>= fun v => suppliedBy e [] row >>= fun given =>
        mutationCall v.2 (some name) given.2 >>= fun ty =>
          pure (v.1 :: .of .mutationFragment [.token name, .node .arguments l given.1] :: extra, ty) := by
  have hnone : ∀ p ∈ .token name :: .node .arguments l row :: extra, p.isA .mutationFragment = false :=
    List.forall_mem_cons.2 ⟨rfl, List.forall_mem_cons.2 ⟨rfl, fun p hp => (hx p hp).2⟩⟩
  have hmade (subject : Tree) (row : List Tree) :
      asMutation subject (.token name :: .node .arguments l row :: extra) =
        subject :: .of .mutationFragment [.token name, .node .arguments l row] :: extra :=
    asMutation_eq rfl fun p hp => (hx p hp).1
  obtain ⟨pline, pps, rfl⟩ := Tree.isA_iff.1 isPath
  rw [callAsMutation]
  simp only [argumentsOf_named, nameOf?_named named, links_none hnone, putFirst_named, hmade, bind_assoc, pure_bind]

/-- A call has turned into a tree with the same output and block behind it. Whatever these have
turned into, that tree is checked as the call was. -/
def CallAgain (e : Env) (line : Option Coord) (extra : List Tree) (t : Tree) (s : State)
    (out : Tree × Ty) (s' : State) : Prop :=
  ∃ rule front, out.1 = .node rule line (front ++ extra) ∧
    (∀ p ∈ front, p.isA .output = false ∧ p.isA .block = false) ∧
      ∀ extra', TurnedAll extra extra' → Turned t (.node rule line (front ++ extra')) ∧
        value e (.node rule line (front ++ extra')) s =
          .ok ((.node rule line (front ++ extra'), out.2), s')

section Calls

variable {e : Env} {extra : List Tree} {s s' : State} {out : Tree × Ty}

theorem CallAgain.stable (h : CallAgain e line extra t s out s') :
    Turned t out.1 ∧ value e out.1 s = .ok (out, s') := by
  obtain ⟨made, ty⟩ := out
  obtain ⟨rule, front, rfl, -, hall⟩ := h
  exact hall extra (TurnedAll.refl extra)

/-- Neither outputs nor blocks are links or go into one. -/
theorem extras_alone (h : Extras extra) :
    ∀ p ∈ extra, inLink p = false ∧ p.isA .mutationFragment = false := by
  intro p hp
  rcases h.each p hp with h | h <;> obtain ⟨_, _, rfl⟩ := Tree.isA_iff.1 h <;> exact ⟨rfl, rfl⟩

theorem TurnedAll.alone {extra' : List Tree} (h : TurnedAll extra extra')
    (hx : ∀ p ∈ extra, p.isA .mutationFragment = false) :
    ∀ p ∈ extra', p.isA .mutationFragment = false :=
  forall₂_each h hx fun _ _ h hp => (h.isA rfl).trans hp

/-- A value is neither an output nor a block, and neither is what it has turned into. -/
theorem Turned.beside {subject : Tree} (h : Turned t subject) (hf : t.fits .plain = true) :
    subject.isA .output = false ∧ subject.isA .block = false :=
  ⟨(h.isA rfl).trans (Tree.fits_isA hf ⟨rfl, rfl⟩), (h.isA rfl).trans (Tree.fits_isA hf ⟨rfl, rfl⟩)⟩

theorem mutation_again {subject : Tree} {link : Option Coord} (hs : StableTree subject)
    (hr : StableRow ps) (hf : subject.fits .plain = true)
    (hx : ∀ p ∈ extra, p.isA .mutationFragment = false)
    (hrun : value e (.node .mutation line (subject :: .node .mutationFragment link ps :: extra)) s =
      .ok (out, s')) :
    CallAgain e line extra (.node .mutation line (subject :: .node .mutationFragment link ps :: extra))
      s out s' := by
  have hnode : subject.isNode = true := by
    obtain ⟨_, _, _, rfl, -⟩ := Tree.fits_iff.1 hf
    rfl
  rw [value_mutation hnode hx] at hrun
  obtain ⟨⟨made, ty⟩, u, hvalue, hrun⟩ := bind_ok_iff.1 hrun
  obtain ⟨given, v, hgiven, hrun⟩ := bind_ok_iff.1 hrun
  obtain ⟨ty', w, hcall, hrun⟩ := bind_ok_iff.1 hrun
  obtain ⟨rfl, rfl⟩ := pure_ok_iff.1 hrun
  obtain ⟨hmade, hvalue⟩ := hs.value e hvalue
  obtain ⟨hlink, hgiven, hput⟩ := hr.given hgiven
  refine ⟨.mutation, [made, .node .mutationFragment link (Tree.putFirst .arguments given.1 ps)], rfl,
    List.forall_mem_cons.2 ⟨hmade.beside hf, List.forall_mem_singleton.2 ⟨rfl, rfl⟩⟩,
    fun extra' hextra => ⟨.node (.cons hmade (.cons (.node hlink) hextra)), ?_⟩⟩
  rw [List.cons_append, List.singleton_append,
    value_mutation (hmade.isNode.trans hnode) (hextra.alone hx)]
  refine bind_ok_iff.2 ⟨_, u, hvalue, bind_ok_iff.2 ⟨given, v, hgiven, bind_ok_iff.2 ⟨ty', w, ?_, ?_⟩⟩⟩
  · rw [hlink.nameOf?, hcall]
  · rw [hput]
    rfl

/-- A call that stays one: only its arguments are checked. -/
theorem call_again {path : Tree} {name : Token} {l : Option Coord} {row : List Tree} {x : Check β}
    {f : List Supplied → Check Ty} (isPath : path.isA .path = true) (hr : StableRow row)
    (he : ∀ row' extra', TurnedAll extra extra' →
      value e (.node .serviceCall line (path :: .token name :: .node .arguments l row' :: extra')) s =
        (x >>= fun _ => suppliedBy e [] row' >>= fun given => f given.2 >>= fun ty =>
          pure (Tree.node .serviceCall line
            (path :: .token name :: .node .arguments l given.1 :: extra'), ty)) s)
    (hrun : value e (.node .serviceCall line (path :: .token name :: .node .arguments l row :: extra)) s =
      .ok (out, s')) :
    CallAgain e line extra
      (.node .serviceCall line (path :: .token name :: .node .arguments l row :: extra)) s out s' := by
  rw [he row extra (TurnedAll.refl extra)] at hrun
  obtain ⟨b, u, hx, hrun⟩ := bind_ok_iff.1 hrun
  obtain ⟨given, v, hgiven, hrun⟩ := bind_ok_iff.1 hrun
  obtain ⟨ty, w, hty, hrun⟩ := bind_ok_iff.1 hrun
  obtain ⟨rfl, rfl⟩ := pure_ok_iff.1 hrun
  obtain ⟨hturned, hgiven⟩ := hr.supplied e [] hgiven
  refine ⟨.serviceCall, [path, .token name, .node .arguments l given.1], rfl, ?_,
    fun extra' hextra => ⟨.node (.cons (.refl path) (.cons .token (.cons (.node hturned) hextra))), ?_⟩⟩
  · simp only [List.forall_mem_cons]
    exact ⟨⟨Tree.isA_ne isPath (by simp), Tree.isA_ne isPath (by simp)⟩, ⟨rfl, rfl⟩, ⟨rfl, rfl⟩, nofun⟩
  · refine (he given.1 extra' hextra).trans ?_
    exact bind_ok_iff.2 ⟨b, u, hx, bind_ok_iff.2 ⟨given, v, hgiven, bind_ok_iff.2 ⟨ty, w, hty, rfl⟩⟩⟩

/-- A call that turns into a mutation is checked as a mutation then. -/
theorem callAsMutation_again {path : Tree} {name : Token} {l : Option Coord} {row : List Tree}
    (isPath : path.isA .path = true) (named : name.kind = .name) (hs : StableTree path)
    (hr : StableRow row) (hx : Extras extra)
    (hrun : (callAsMutation e (path :: .token name :: .node .arguments l row :: extra) >>= fun made =>
      pure (Tree.node .mutation line made.1, made.2)) s = .ok (out, s')) :
    CallAgain e line extra
      (.node .serviceCall line (path :: .token name :: .node .arguments l row :: extra)) s out s' := by
  have hfits : path.fits .plain = true := Tree.fits_of_isA isPath rfl
  rw [callAsMutation_called isPath named (extras_alone hx)] at hrun
  simp only [bind_assoc, pure_bind] at hrun
  obtain ⟨⟨made, ty⟩, u, hvalue, hrun⟩ := bind_ok_iff.1 hrun
  obtain ⟨given, v, hgiven, hrun⟩ := bind_ok_iff.1 hrun
  obtain ⟨ty', w, hcall, hrun⟩ := bind_ok_iff.1 hrun
  obtain ⟨rfl, rfl⟩ := pure_ok_iff.1 hrun
  obtain ⟨hmade, hvalue⟩ := hs.value e hvalue
  obtain ⟨hturned, hgiven⟩ := hr.supplied e [] hgiven
  have hnode : made.isNode = true := by
    obtain ⟨_, _, rfl⟩ := Tree.isA_iff.1 isPath
    exact hmade.isNode
  have hargs : argumentsOf e [.token name, .node .arguments l given.1] u =
      .ok ((some (.node .arguments l given.1), given.2), v) := by
    rw [argumentsOf_named]
    exact bind_ok_iff.2 ⟨given, v, hgiven, rfl⟩
  refine ⟨.mutation, [made, .of .mutationFragment [.token name, .node .arguments l given.1]], rfl,
    List.forall_mem_cons.2 ⟨hmade.beside hfits, List.forall_mem_singleton.2 ⟨rfl, rfl⟩⟩,
    fun extra' hextra => ⟨.call hmade (.node hturned) hextra, ?_⟩⟩
  rw [List.cons_append, List.singleton_append,
    value_mutation hnode (hextra.alone fun p hp => (extras_alone hx p hp).2)]
  refine bind_ok_iff.2 ⟨_, u, hvalue, bind_ok_iff.2 ⟨_, v, hargs, bind_ok_iff.2 ⟨ty', w, ?_, ?_⟩⟩⟩
  · rw [nameOf?_named named]
    exact hcall
  · rw [putFirst_named]
    rfl

theorem putFirst_called {path given : Tree} {name : Token} {l : Option Coord} {row : List Tree}
    (isPath : path.isA .path = true) :
    Tree.putFirst .arguments (some given) (path :: .token name :: .node .arguments l row :: extra) =
      path :: .token name :: given :: extra := by
  have hfront : ∀ p ∈ [path, .token name], p.isA .arguments = false := by
    simp only [List.forall_mem_cons]
    exact ⟨Tree.isA_ne isPath (by simp), rfl, nofun⟩
  exact (putFirst_front _ hfront).trans (by rw [putFirst_here rfl]; rfl)

theorem lookup_bind {e : Env} {n : String} {f : Option Binding → Check β} {s : State} :
    (lookup e n >>= f) s = f (e.found s.scopes n) s := rfl

theorem serviceCall_again {path : Tree} {root name : Token} {l : Option Coord} {row : List Tree}
    (isPath : path.isA .path = true) (rooted : path.firstToken? = some root) (named : name.kind = .name)
    (hs : StableTree path) (hr : StableRow row) (hx : Extras extra)
    (hrun : value e (.node .serviceCall line (path :: .token name :: .node .arguments l row :: extra)) s =
      .ok (out, s')) :
    CallAgain e line extra
      (.node .serviceCall line (path :: .token name :: .node .arguments l row :: extra)) s out s' := by
  cases hty : (e.found s.scopes root.literal).map (·.ty) with
  | none =>
    cases hdot : path.parts.any (·.isA .pathFragment) with
    | true =>
      refine call_again (x := report .serviceNameDot [] (some root.position)) (f := fun _ => pure .any)
        isPath hr (fun row' extra' _ => ?_) hrun
      rw [value_call isPath rooted, lookup_bind]
      simp only [hty, hdot, if_true, argumentsOf_called isPath, putFirst_called isPath, bind_assoc, pure_bind]
    | false =>
      refine call_again (x := pure ()) (f := commandCall e root.literal root.position (some name))
        isPath hr (fun row' extra' _ => ?_) hrun
      rw [value_call isPath rooted, lookup_bind]
      simp only [hty, hdot, Bool.false_eq_true, if_false, argumentsOf_called isPath,
        nameOf?_called isPath named, putFirst_called isPath, bind_assoc, pure_bind]
  | some ty =>
    have hmutation (h : ty.isOutput = false ∨ path.parts.any (·.isA .pathFragment) = true) :
        value e (.node .serviceCall line (path :: .token name :: .node .arguments l row :: extra)) s =
          (callAsMutation e (path :: .token name :: .node .arguments l row :: extra) >>= fun made =>
            pure (Tree.node .mutation line made.1, made.2)) s := by
      rw [value_call isPath rooted, lookup_bind]
      simp only [hty]
      rcases h with h | h
      · cases ty with
        | service => cases h
        | _ => rfl
      · rw [h]
        cases ty <;> rfl
    cases hdot : path.parts.any (·.isA .pathFragment) with
    | true => exact callAsMutation_again isPath named hs hr hx ((hmutation (.inr hdot)).symm.trans hrun)
    | false =>
      cases hout : ty.isOutput with
      | false => exact callAsMutation_again isPath named hs hr hx ((hmutation (.inl hout)).symm.trans hrun)
      | true =>
        obtain ⟨service, command, rfl⟩ := Ty.isOutput_iff.1 hout
        refine call_again (x := pure ()) (f := fun _ => pure .any) isPath hr (fun row' extra' _ => ?_) hrun
        rw [value_call isPath rooted, lookup_bind]
        simp only [hty, hdot, argumentsOf_called isPath, putFirst_called isPath, bind_assoc, pure_bind]

/-- The parts of a call of a service or of a mutation, and how it is checked again. -/
theorem calledAgain (h : Formed Token.Sound g .plain (.node rule line ps))
    (hrule : rule = .serviceCall ∨ rule = .mutation) (hps : ∀ p ∈ ps, StableTree p) :
    ∃ front extra, ps = front ++ extra ∧ (∀ p ∈ front, p.isA .output = false ∧ p.isA .block = false) ∧
      ∀ e s out s', value e (.node rule line ps) s = .ok (out, s') →
        CallAgain e line extra (.node rule line ps) s out s' := by
  obtain _ | ⟨content, -, parts⟩ := h
  rcases hrule with rfl | rfl
  · cases content with
    | @serviceCall _ path command given extra isPath named arguments extras =>
      obtain ⟨l, row, rfl⟩ := Tree.isA_iff.1 arguments
      simp only [List.forall_mem_cons] at hps parts
      refine ⟨[path, .token command, .node .arguments l row], extra, rfl, ?_, fun e s out s' hrun => ?_⟩
      · simp only [List.forall_mem_cons]
        exact ⟨⟨Tree.isA_ne isPath (by simp), Tree.isA_ne isPath (by simp)⟩, ⟨rfl, rfl⟩, ⟨rfl, rfl⟩, nofun⟩
      · obtain ⟨root, rooted⟩ := Option.isSome_iff_exists.1
          (parts.1.hasToken (Tree.isA_ne isPath (by simp)) (Tree.isA_ne isPath (by simp)))
        exact serviceCall_again isPath rooted named hps.1 hps.2.2.1.row extras hrun
  · cases content with
    | @mutation subject link extra fits linked extras =>
      obtain ⟨l, inner, rfl⟩ := Tree.isA_iff.1 linked
      simp only [List.forall_mem_cons] at hps
      refine ⟨[subject, .node .mutationFragment l inner], extra, rfl, ?_, fun e s out s' hrun => ?_⟩
      · exact List.forall_mem_cons.2 ⟨(Turned.refl subject).beside fits,
          List.forall_mem_singleton.2 ⟨rfl, rfl⟩⟩
      · exact mutation_again hps.1 hps.2.1.row fits (fun p hp => (extras_alone extras p hp).2) hrun

end Calls

/-! ## Values -/

theorem stable_path (h : StableRow ps) (e : Env) : Stable Turned Prod.fst (value e) (.node .path line ps) := by
  cases hroot : Tree.firstTokenOf? ps with
  | none => exact .kept (x := (.node .path line ps, .any)) (.refl _) rfl (by rw [value, hroot])
  | some root =>
    refine .before (x := lookup e root.literal) (f := fun found t => found.elim
      (report .unknownVariable [root.literal] (some root.position) >>= fun _ => pure (t, .any))
      fun binding => fragments e binding.ty t.parts >>= fun out => pure (.node .path line out.1, out.2))
      (.refl _) (fun found => ?_) fun t' ht => ?_
    · cases found with
      | none => exact .before (.refl _) (fun _ => .kept (.refl _) rfl rfl) fun _ _ => rfl
      | some binding =>
        exact .node (f := fun out => pure (.node .path line out.1, out.2)) (h.fragments e binding.ty)
          (fun _ => gives_pure rfl) fun _ _ => rfl
    · obtain ⟨ps', rfl, hps⟩ := ht.of_node (by simp)
      rw [value, hps.firstTokenOf?, hroot]
      refine bind_congr fun found => ?_
      cases found <;> rfl

theorem stable_functionCall (h : StableRow ps) (e : Env) :
    Stable Turned Prod.fst (value e) (.node .functionCall line ps) := by
  intro s out s' hrun
  rw [value] at hrun
  obtain ⟨given, u, hgiven, hrun⟩ := bind_ok_iff.1 hrun
  obtain ⟨ty, v, hcall, hrun⟩ := bind_ok_iff.1 hrun
  obtain ⟨rfl, rfl⟩ := pure_ok_iff.1 hrun
  obtain ⟨hturned, hagain, hput⟩ := h.given hgiven
  refine ⟨.node hturned, ?_⟩
  rw [value]
  refine bind_ok_iff.2 ⟨given, u, hagain, bind_ok_iff.2 ⟨ty, v, ?_, ?_⟩⟩
  · rw [hturned.nameOf?, hcall]
  · rw [hput]
    rfl

theorem stableTree_of_formed (h : Formed Token.Sound g .plain t) : StableTree t := by
  induction h with
  | token u => exact ⟨fun e => .kept .token rfl rfl, .nil⟩
  | @node rule line ps content own parts ih =>
    have row : StableRow ps := .of ih
    refine ⟨fun e => ?_, row⟩
    cases rule with
    | list =>
      refine .node (f := fun out => pure (.node .list line out.1, .list (commonOf out.2)))
        (row.firsts e ps.length) (fun _ => gives_pure rfl) fun ps' hq => ?_
      rw [value, hq.length_eq]
    | map =>
      refine .node (f := fun out => pure (.node .map line out.1, mapType out.2))
        (row.entries e) (fun _ => gives_pure rfl) fun ps' _ => ?_
      rw [value]
    | path => exact stable_path row e
    | binaryExpression =>
      refine .node (f := fun out => betweenType out.1 out.2 >>= fun ty =>
        pure (.node .binaryExpression line out.1, ty))
        (row.firsts e 2) (fun _ => .after fun _ => gives_pure rfl) fun ps' _ => ?_
      rw [value]
    | unaryExpression =>
      refine .node (f := fun out => beforeType out.1 out.2 >>= fun ty =>
        pure (.node .unaryExpression line out.1, ty))
        (row.firsts e 1) (fun _ => .after fun _ => gives_pure rfl) fun ps' _ => ?_
      rw [value]
    | cast =>
      refine .node (f := fun out => castType out.1 out.2 >>= fun ty => pure (.node .cast line out.1, ty))
        (row.firsts e 1) (fun _ => .after fun _ => gives_pure rfl) fun ps' _ => ?_
      rw [value]
    | expressionStatement =>
      refine .node (f := fun out => pure (.node .expressionStatement line out.1, out.2.getD 0 .any))
        (row.firsts e 1) (fun _ => gives_pure rfl) fun ps' _ => ?_
      rw [value]
    | serviceCall =>
      obtain ⟨front, extra, -, -, hall⟩ := calledAgain (.node content own parts) (.inl rfl) ih
      exact fun s out s' hrun => (hall e s out s' hrun).stable
    | mutation =>
      obtain ⟨front, extra, -, -, hall⟩ := calledAgain (.node content own parts) (.inr rfl) ih
      exact fun s out s' hrun => (hall e s out s' hrun).stable
    | functionCall => exact stable_functionCall row e
    | _ => exact .kept (.refl _) rfl rfl

end StoryLang.Check
