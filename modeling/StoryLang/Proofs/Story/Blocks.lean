/-
Stories with other statements in a block.

The way to a block goes through lists of statements, of which one has the block
that the rest of the way is in. Each of these lists encloses the statements at
the end of the way, so the check of a story does.

Functions are noted before a story is checked, and of a function only what is in
front of its block is noted. So statements that declare the same functions can
stand for each other in a block, and everything around it is checked alike.
The body of a function starts in a scope that has its parameters. Without the
variables of the story it sees nothing below that scope, so wherever the function
is declared its body is checked alike.

A block of a story has a scope of its own, and what is checked after it starts
where it would have started after any other statements. So nothing that is found
out about the rest of a story comes from the statements of one of its blocks, but
for the functions they declare.
-/
import StoryLang.Proofs.Check.Around
import StoryLang.Proofs.Story.Plain

namespace StoryLang.Check

variable {α : Type} {k m n : Nat} {e : Env} {g : Grammar} {rule : Rule} {line l : Option Coord}
  {front back ps ts : List Tree} {f : Frame} {t : Tree}

/-! ## What is done before a block -/

/-- A value stays what it is, or is a call that becomes a mutation. -/
theorem value_retells (e : Env) (t : Tree) : Returns (value e t) fun out _ => Retells t out.1 := by
  have kept : ∀ ty : Ty, Returns (pure (t, ty)) fun out _ => Retells t out.1 :=
    fun ty => returns_pure fun _ => .refl t
  cases t with
  | token u => exact kept .any
  | node rule line ps =>
    cases rule with
    | list | map | unaryExpression | binaryExpression | cast | functionCall | expressionStatement | mutation =>
      unfold value
      first
      | exact returns_bind fun _ => returns_bind fun _ => returns_pure fun _ => .same
      | exact returns_bind fun _ => returns_pure fun _ => .same
    | path =>
      unfold value
      split
      · exact kept _
      · refine returns_bind fun found => ?_
        split
        · exact returns_bind fun _ => kept _
        · exact returns_bind fun _ => returns_pure fun _ => .same
    | serviceCall =>
      unfold value
      split
      · exact kept _
      · split
        · exact kept _
        · refine returns_bind fun found => ?_
          split
          · dsimp only
            split
            · exact returns_bind fun _ => returns_bind fun _ => returns_pure fun _ => .same
            · exact returns_bind fun _ => returns_bind fun _ => returns_pure fun _ => .same
          · split
            · exact returns_bind fun _ => returns_pure fun _ => .same
            · exact returns_bind fun _ => returns_pure fun _ => .call
    | _ => exact kept _

theorem condition_retells (e : Env) (t : Tree) : Returns (condition e t) fun t' _ => Retells t t' := by
  refine (value_retells e t).bind fun out hout => ?_
  obtain ⟨_, hout⟩ := hout
  exact returns_ite (returns_bind fun _ => returns_pure fun _ => hout) (returns_pure fun _ => hout)

/-- The first node of a row that has one in front of its block. -/
theorem exists_node (h : front.any Tree.isNode = true) (hno : ∀ p ∈ front, p.isA .block = false) :
    ∃ first, first.isA .block = false ∧ (∀ rest, (front ++ rest).find? Tree.isNode = some first) ∧
      (∀ rest, ((front ++ rest).filter Tree.isNode)[0]? = some first) ∧
      ∀ {first'}, first'.isA .block = false → ∃ front', (∀ rest,
        Tree.putNode (some first') 0 (front ++ rest) = front' ++ rest) ∧ ∀ p ∈ front', p.isA .block = false := by
  induction front with
  | nil => cases h
  | cons p front ih =>
    simp only [List.forall_mem_cons] at hno
    cases p with
    | token u =>
      obtain ⟨first, hfirst, hfind, hnode, hput⟩ := ih (by simpa [Tree.isNode] using h) hno.2
      refine ⟨first, hfirst, fun rest => ?_, fun rest => ?_, fun hfirst' => ?_⟩
      · simpa [List.find?_cons, Tree.isNode] using hfind rest
      · simpa [List.filter_cons, Tree.isNode] using hnode rest
      · obtain ⟨front', hput, hno'⟩ := hput hfirst'
        exact ⟨.token u :: front', fun rest => by simp [Tree.putNode, Tree.isNode, hput], by simpa using hno'⟩
    | node r line inner =>
      refine ⟨.node r line inner, hno.1, fun rest => rfl, fun rest => rfl, fun {first'} hfirst' => ?_⟩
      refine ⟨first' :: front, fun rest => by simp [Tree.putNode, Tree.isNode], ?_⟩
      exact List.forall_mem_cons.2 ⟨hfirst', hno.2⟩

/-! ## Statements -/

theorem encloses_while (hno : ∀ p ∈ front, p.isA .block = false) (hnode : front.any Tree.isNode = true) :
    Encloses k k k (Comes e ⟨.whileBlock, line, front, back⟩ l) (Remakes ⟨.whileBlock, line, front, back⟩ l)
      fun ts => statement e (.node .whileBlock line (front ++ .node .block l ts :: back)) := by
  obtain ⟨first, hfirst, hfind, -, hput⟩ := exists_node hnode hno
  have hrun : ∀ ts, statement e (.node .whileBlock line (front ++ .node .block l ts :: back)) =
      condition e first >>= fun first' => inOwnScope (statements e .open ts) >>= fun made =>
        pure (.node .whileBlock line (Tree.putFirst .block (some (.node .block l made))
          (Tree.putNode (some first') 0 (front ++ .node .block l ts :: back)))) := by
    intro ts
    unfold statement
    simp only [hfind, blockOf_cut hno, map_eq_pure_bind, bind_assoc, pure_bind]
  simp only [hrun]
  refine .bindLeft ((Env.Sees.refl e []).condition _)
    ((condition_retells e first).mono fun _ _ h => (h.isA_eq rfl).trans hfirst) fun first' hfirst' => ?_
  obtain ⟨front', hput, hno'⟩ := hput hfirst'
  simp only [hput, putFirst_cut hno']
  exact encloses_inOwnScope (fun made => Tree.node .whileBlock line (front' ++ .node .block l made :: back))
    ⟨⟨.whileBlock, line, front', back⟩, rfl, .inl rfl, by simp⟩ (comes_self (by simp))

theorem encloses_foreach (hno : ∀ p ∈ front, p.isA .block = false) (hnode : front.any Tree.isNode = true)
    (hstart : (Tree.firstTokenOf? front).isSome = true) :
    Encloses k k k (Comes e ⟨.foreachBlock, line, front, back⟩ l) (Remakes ⟨.foreachBlock, line, front, back⟩ l)
      fun ts => statement e (.node .foreachBlock line (front ++ .node .block l ts :: back)) := by
  obtain ⟨first, hfirst, -, hnode, hput⟩ := exists_node hnode hno
  let names := outputNames (front ++ back)
  have hrun : ∀ ts, statement e (.node .foreachBlock line (front ++ .node .block l ts :: back)) =
      value e first >>= fun out =>
        (iteratedTypes out.2 names.length out.1.position? >>= fun tys =>
          push >>= fun _ => declareAll (Tree.node .foreachBlock line front).line? names tys) >>= fun _ =>
        statements e .open ts >>= fun made => pop >>= fun _ =>
        pure (.node .foreachBlock line (Tree.putFirst .block (some (.node .block l made))
          (Tree.putNode (some out.1) 0 (front ++ .node .block l ts :: back)))) := by
    intro ts
    unfold statement nodeValue
    simp only [hnode, outputNames_cut, line?_cut hstart, bodyOf_cut hno, bind_assoc, pure_bind, names,
      Option.bind_some]
  simp only [hrun]
  refine .bindLeft ((Env.Sees.refl e []).value _)
    ((value_retells e first).mono fun _ _ h => (h.isA_eq rfl).trans hfirst) fun out hout => ?_
  obtain ⟨front', hput, hno'⟩ := hput hout
  simp only [hput, putFirst_cut hno']
  refine .of (fun _ => e) (fun _ made => .node .foreachBlock line (front' ++ .node .block l made :: back))
    ((mirrors_iteratedTypes _ _ _).bind fun _ => reflects_push.bind fun _ => mirrors_declareAll _ _ _)
    (fun _ _ s _ => ⟨comes_self (by simp) s, ⟨.foreachBlock, line, front', back⟩, rfl, .inl rfl, by simp⟩) fun _ => rfl

theorem encloses_function (hno : ∀ p ∈ front, p.isA .block = false)
    (hstart : (Tree.firstTokenOf? front).isSome = true) (hname : ∃ u, Tree.token u ∈ front ∧ u.kind = .name) :
    Encloses k k k (Comes e ⟨.functionBlock, line, front, back⟩ l) (Remakes ⟨.functionBlock, line, front, back⟩ l)
      fun ts => statement e (.node .functionBlock line (front ++ .node .block l ts :: back)) := by
  obtain ⟨name, hname⟩ := exists_nameOf? hname back
  have hrun : ∀ ts, statement e (.node .functionBlock line (front ++ .node .block l ts :: back)) =
      entering e (.node .functionBlock line (front ++ .node .block l [] :: back)) >>= fun body =>
        statements { e with body } .open ts >>= fun made => pop >>= fun _ =>
        pure (.node .functionBlock line (front ++ .node .block l made :: back)) := by
    intro ts
    unfold statement entering
    simp only [nameOf?_cut, hname, returnTypes_cut, parameters_cut, line?_cut hstart, bodyOf_cut hno, putFirst_cut hno,
      bind_assoc, pure_bind]
  simp only [hrun]
  refine .of (fun body => { e with body })
    (fun _ made => .node .functionBlock line (front ++ .node .block l made :: back)) ?_ ?_ fun _ => rfl
  · unfold entering
    simp only [nameOf?_cut, hname]
    refine reflects_push.bind fun _ => .topNumber ?_
    exact (mirrors_declareAll _ _ _).bind fun _ => mirrors_pure
  · exact fun s body t hbody => ⟨⟨body, rfl, fun _ => ⟨s, hbody⟩⟩, remakes_self ⟨.functionBlock, line, front, back⟩⟩

/-- Arguments that are put back in front of a block or behind it. -/
theorem putFirst_around (l : Option Coord) (back : List Tree) {given : Option Tree} (hg : ∀ t ∈ given, t.isA .arguments = true)
    (hno : ∀ p ∈ front, p.isA .block = false) : ∃ front' back', (∀ p ∈ front', p.isA .block = false) ∧
      ∀ ts, Tree.putFirst .arguments given (front ++ .node .block l ts :: back) =
        front' ++ .node .block l ts :: back' := by
  cases given with
  | none => exact ⟨front, back, hno, fun ts => by cases front <;> rfl⟩
  | some new =>
    induction front with
    | nil =>
      refine ⟨[], Tree.putFirst .arguments (some new) back, nofun, fun ts => ?_⟩
      simp [Tree.putFirst, Tree.isA, Tree.rule?]
    | cons p front ih =>
      simp only [List.forall_mem_cons] at hno
      by_cases hp : p.isA .arguments = true
      · refine ⟨new :: front, back, ?_, fun ts => by simp [Tree.putFirst, hp]⟩
        exact List.forall_mem_cons.2 ⟨Tree.isA_ne (hg new rfl) (by simp), hno.2⟩
      · obtain ⟨front', back', hno', hput⟩ := ih hno.2
        exact ⟨p :: front', back', List.forall_mem_cons.2 ⟨hno.1, hno'⟩, fun ts => by simp [Tree.putFirst, hp, hput]⟩

theorem returns_argumentsOf (ps : List Tree) :
    Returns (argumentsOf e ps) fun out _ => ∀ t ∈ out.1, t.isA .arguments = true := by
  induction ps with
  | nil =>
    unfold argumentsOf
    exact returns_pure fun _ => by simp
  | cons p ps ih =>
    cases p with
    | token u => exact ih
    | node r l inner =>
      by_cases hr : r = .arguments
      · subst hr
        unfold argumentsOf
        exact returns_bind fun _ => returns_pure fun _ => by simp [Tree.isA, Tree.rule?]
      · rw [argumentsOf_other hr]
        exact ih

theorem encloses_when (hno : ∀ p ∈ front, p.isA .block = false)
    (hstart : (Tree.firstTokenOf? front).isSome = true)
    (hheard : ((front.find? (·.isA .path)).bind Tree.firstToken?).isSome = true) :
    Encloses k k k (Comes e ⟨.whenBlock, line, front, back⟩ l) (Remakes ⟨.whenBlock, line, front, back⟩ l)
      fun ts => statement e (.node .whenBlock line (front ++ .node .block l ts :: back)) := by
  obtain ⟨root, hroot⟩ := Option.isSome_iff_exists.1 hheard
  obtain ⟨path, hpath, hfirst⟩ := Option.bind_eq_some_iff.1 hroot
  have hrun : ∀ ts, statement e (.node .whenBlock line (front ++ .node .block l ts :: back)) =
      argumentsOf e (front ++ back) >>= fun out =>
        (listening e root (nameOf? (front ++ back)) out.2 >>= fun ty => push >>= fun _ =>
          declareOutput (.node .whenBlock line (front ++ .node .block l [] :: back)) ty) >>= fun _ =>
        statements e .open ts >>= fun made => pop >>= fun _ =>
        pure (.node .whenBlock line (Tree.putFirst .block (some (.node .block l made))
          (Tree.putFirst .arguments out.1 (front ++ .node .block l ts :: back)))) := by
    intro ts
    unfold statement
    simp only [argumentsOf_cut, nameOf?_cut, List.find?_append, hpath, Option.some_or, Option.bind_some, hfirst,
      declareOutput, line?_cut hstart, Tree.parts, outputNames_cut, bodyOf_cut hno, bind_assoc, pure_bind]
  simp only [hrun]
  refine .bindLeft ((Env.Sees.refl e []).arguments _) (returns_argumentsOf _) fun out hout => ?_
  obtain ⟨front', back', hno', hput⟩ := putFirst_around l back hout hno
  simp only [hput, putFirst_cut hno']
  refine .of (fun _ => e) (fun _ made => .node .whenBlock line (front' ++ .node .block l made :: back'))
    (((Env.Sees.refl e []).listening _ _ _).bind fun _ => reflects_push.bind fun _ => mirrors_declareOutput _ _)
    (fun _ _ s _ => ⟨comes_self (by simp) s, ⟨.whenBlock, line, front', back'⟩, rfl, .inl rfl, by simp⟩) fun _ => rfl

/-- A block directly in a statement with branches. -/
theorem encloses_first {row : List Tree → Check (List Tree)} (hrow : ChecksRow e rule row)
    (hblock : ∀ ts, row [.node .block l ts] =
      inOwnScope (statements e .open ts) >>= fun made => pure [.node .block l made])
    (hrule : rule ≠ .functionBlock) :
    Encloses k k k (Comes e ⟨rule, line, front, back⟩ l) (Remakes ⟨rule, line, front, back⟩ l)
      fun ts => statement e (.node rule line (front ++ .node .block l ts :: back)) := by
  simp only [hrow.statement]
  refine (encloses_block hrow.partByPart (comes_self hrule) hblock).map ?_
  rintro _ ⟨front', _, back', rfl, -, rfl⟩
  exact ⟨⟨rule, line, front', back'⟩, rfl, .inl rfl, fun h => absurd h hrule⟩

/-- A statement that a block belongs to encloses it. -/
theorem encloses_frame (hf : f.OwnsBlock g) (hs : f.rule.isStatement = true) :
    Encloses (k + 1) (k + 1) (k + 1) (Comes e f l) (Remakes f l) fun ts => statement e (f.around (.node .block l ts)) := by
  obtain ⟨rule, line, front, back⟩ := f
  obtain ⟨hrule, hstart, hno, hheaded⟩ := hf
  dsimp only at hs hrule hstart hno
  cases rule with
  | serviceCall =>
    obtain ⟨rfl, hformed⟩ : back = [] ∧ _ := hheaded
    exact encloses_call (.inl rfl) hformed hno
  | mutation =>
    obtain ⟨rfl, hformed⟩ : back = [] ∧ _ := hheaded
    exact encloses_call (.inr rfl) hformed hno
  | whileBlock => exact encloses_while hno hheaded
  | foreachBlock => exact encloses_foreach hno hheaded hstart
  | functionBlock => exact encloses_function hno hstart hheaded
  | whenBlock => exact encloses_when hno hstart hheaded
  | ifBlock =>
    refine encloses_first .ifBlock (fun ts => ?_) (by simp)
    rw [branches]
    simp only [branches, pure_bind]
  | tryBlock =>
    refine encloses_first .tryBlock (fun ts => ?_) (by simp)
    rw [handlers]
    simp only [handlers, pure_bind]
  | _ => simp [Rule.hasBlock, Rule.isStatement] at hs hrule

end StoryLang.Check

/-! # The way to a block -/

namespace StoryLang.Check

variable {k : Nat} {e : Env} {g : Grammar} {o : Owner} {place : Hole}

/-! ## Statements -/

/-- Only after a `return` and the like a statement is not reached. -/
theorem Flow.after_hasBlock {r : Rule} (h : r.hasBlock = true ∨ r = .mutation) (flow : Flow) (line : Option Coord)
    (ps : List Tree) : flow.after (.node r line ps) = flow := by
  cases r <;> simp [Rule.hasBlock] at h <;> cases flow <;> rfl

/-- What is made of a statement around a block: one with the block at the same place. -/
def RemakesOwner (o : Owner) (close : List Tree → Tree) : Prop :=
  ∃ o' : Owner, close = o'.around ∧ o'.place = o.place ∧ (∀ flow ts, Flow.after flow (o'.around ts) = flow) ∧
    (o.frame.rule = .functionBlock → o'.frame = o.frame)

theorem encloses_owner (h : o.Stands g) : Encloses (k + 1) (k + 1) (k + 1) (Comes e o.frame o.line)
    (RemakesOwner o) fun ts => statement e (o.around ts) := by
  obtain ⟨f, branch, line, isBranch⟩ := o
  cases branch with
  | none =>
    obtain ⟨hs, hf⟩ : f.rule.isStatement = true ∧ f.OwnsBlock g := h
    refine (encloses_frame hf hs).mono (fun _ _ => id) ?_
    rintro _ ⟨f', rfl, hrule, hsame⟩
    refine ⟨⟨f', none, line, nofun⟩, rfl, rfl, fun flow ts => Flow.after_hasBlock ?_ _ _ _, hsame⟩
    rcases hrule with hrule | ⟨-, hrule⟩
    · rw [hrule]
      exact hf.rule
    · exact .inr hrule
  | some b =>
    obtain ⟨hr, hstart, hb⟩ : f.rule.Branches b.rule ∧ (Tree.firstTokenOf? f.front).isSome = true ∧ b.OwnsBlock g := h
    obtain ⟨row, hrow⟩ : ∃ row, ChecksRow e f.rule row := by
      rcases hr.owner with hf | hf <;> rw [hf]
      · exact ⟨_, .ifBlock⟩
      · exact ⟨_, .tryBlock⟩
    have hrun : ∀ ts, statement e (Owner.around ⟨f, some b, line, isBranch⟩ ts) =
        row (f.front ++ b.around (.node .block line ts) :: f.back) >>= fun ps => pure (.node f.rule f.line ps) :=
      fun ts => hrow.statement
    simp only [hrun]
    refine (hrow.partByPart.encloses (encloses_branch hrow hr hb)).map ?_
    rintro _ ⟨front', _, back', rfl, hlength, b', rfl, hrule, hsame⟩
    have hbranch : b'.rule.isBranch = true := by
      have hb' := isBranch b rfl
      rcases hrule with hrule | ⟨hcall, -⟩
      · rwa [hrule]
      · rw [hcall] at hb'
        cases hb'
    refine ⟨⟨⟨f.rule, f.line, front', back'⟩, some b', line, fun _ hx => Option.some.inj hx ▸ hbranch⟩, rfl,
      by simp [Owner.place, hlength], fun flow ts => Flow.after_hasBlock ?_ _ _ _, hsame⟩
    rcases hr.owner with hf | hf <;> exact .inl (by rw [hf]; rfl)

theorem Owner.Stands.start (h : o.Stands g) : (Tree.firstTokenOf? o.statement.front).isSome = true := by
  obtain ⟨f, branch, line, isBranch⟩ := o
  cases branch with
  | none => exact h.2.start
  | some b => exact h.2.1

/-- A list of statements, of which one has the block. -/
theorem encloses_list (before after : List Tree) (h : o.Stands g) (flow : Flow) : Encloses (k + 1) (k + 1) (k + 1)
    (Comes e o.frame o.line) (RemakesRow before.length (RemakesOwner o))
    fun ts => statements e flow (before ++ o.around ts :: after) := by
  induction before generalizing flow with
  | nil =>
    have hrun : ∀ ts, statements e flow (o.around ts :: after) = flow.enter (o.around []) >>= fun flow =>
        statement e (o.around ts) >>= fun t => statements e (flow.after t) after >>= fun rest => pure (t :: rest) := by
      intro ts
      have hplace : (o.around ts).position? = (o.around []).position? :=
        (position?_cut (Owner.Stands.start h)).trans (position?_cut (Owner.Stands.start h)).symm
      have henter : flow.enter (o.around ts) = flow.enter (o.around []) := by simp only [Flow.enter, hplace]
      rw [← henter]
      unfold Owner.around Frame.around
      rw [statements]
    simp only [List.nil_append, hrun]
    refine .bindAny (mirrors_enter _ _) fun flow => ?_
    refine (encloses_owner h).bindRight (y := statements e flow after) (fun t rest => t :: rest)
      ((Env.Sees.refl e []).statements _ _) ?_ ?_
    · rintro _ ⟨o', rfl, -, hflow, -⟩ made
      rw [hflow]
    · exact fun close hclose _ rest _ _ => ⟨[], close, rest, rfl, rfl, hclose⟩
  | cons t before ih =>
    have more : ∀ {t flow}, Encloses (k + 1) (k + 1) (k + 1) (Comes e o.frame o.line)
        (RemakesRow (before.length + 1) (RemakesOwner o)) fun ts =>
          statements e flow (before ++ o.around ts :: after) >>= fun rest => pure (t :: rest) := by
      intro t flow
      refine (ih flow).map ?_
      rintro _ ⟨front', part, back', rfl, hlength, hpart⟩
      exact ⟨t :: front', part, back', rfl, by simp [hlength], hpart⟩
    cases t with
    | token u =>
      simp only [List.cons_append, statements]
      exact more
    | node r line ps =>
      simp only [List.cons_append, statements]
      refine .bindAny (mirrors_enter _ _) fun flow => ?_
      exact .bindAny ((treeMirrors [] [] _).statement k e e (.refl e [])) fun _ => more

/-! ## Ways -/

/-- What is made of the lists around a block: the way to it stays the same. -/
def RemakesHole (place : Hole) (close : List Tree → List Tree) : Prop :=
  ∃ place' : Hole, close = place'.fill ∧ place'.address = place.address ∧
    ∀ f ∈ place.frame?, f.rule = .functionBlock → place'.frame? = some f

/-- How the statements at the end of the way are come to. -/
def ComesTo (e : Env) (place : Hole) (e' : Env) (s : State) : Prop :=
  (∃ body, e' = { e with body }) ∧ ∀ f ∈ place.frame?, f.rule = .functionBlock → ∃ outside l s₁ body,
    entering { e with body := outside } (f.around (.node .block l [])) s₁ = .ok (body, s) ∧ e' = { e with body }

/-- Lists of statements enclose what is in a block in them. -/
theorem encloses_hole (h : place.Stands g) (hp : place ≠ .here) (flow : Flow) :
    Encloses (k + 1) (k + place.address.length) (k + 1) (ComesTo e place) (RemakesHole place)
      fun ts => statements e flow (place.fill ts) := by
  induction place generalizing k e flow with
  | here => exact absurd rfl hp
  | inside before o rest after ih =>
    have hlist := encloses_list (k := k) (e := e) before after h.1 flow
    by_cases hrest : rest = .here
    · subst hrest
      refine hlist.mono ?_ ?_
      · rintro e' s ⟨body, rfl, hfunction⟩
        refine ⟨⟨body, rfl⟩, fun f hf hrule => ?_⟩
        obtain rfl : o.frame = f := by simpa [Hole.frame?] using hf
        obtain ⟨s₁, hs⟩ := hfunction hrule
        exact ⟨e.body, o.line, s₁, body, hs, rfl⟩
      · rintro _ ⟨front', _, back', rfl, hlength, o', rfl, hplace, -, hsame⟩
        refine ⟨.inside front' o' .here back', rfl, by simp [Hole.address, hlength, hplace], fun f hf hrule => ?_⟩
        obtain rfl : o.frame = f := by simpa [Hole.frame?] using hf
        exact congrArg some (hsame hrule)
    · have hlength : k + (Hole.inside before o rest after).address.length = k + 1 + rest.address.length := by
        simp only [Hole.address, List.length_cons]
        omega
      have hframe := Hole.frame?_inside before after o hrest
      have hinner := fun e' => ih (k := k + 1) (e := e') h.2 hrest .open
      rw [hlength]
      refine (hlist.within hinner ?_).mono ?_ fun _ => id
      · rintro _ _ ⟨front', _, back', rfl, hfront, o', rfl, hplace, -, -⟩ ⟨place', rfl, haddress, hsame⟩
        have hplace' : place' ≠ .here := by
          rintro rfl
          cases rest with
          | here => exact hrest rfl
          | inside => cases haddress
        refine ⟨.inside front' o' place' back', rfl, by simp [Hole.address, hfront, hplace, haddress], ?_⟩
        rw [hframe, Hole.frame?_inside _ _ _ hplace']
        exact hsame
      · rintro e'' s ⟨_, _, ⟨body, rfl, -⟩, ⟨body', rfl⟩, hfunction⟩
        refine ⟨⟨body', rfl⟩, ?_⟩
        rw [hframe]
        exact hfunction

end StoryLang.Check

namespace StoryLang

/-- The functions that are declared in a row of trees, at every depth. -/
def Tree.functionsAll (ts : List Tree) : List Tree := (walkAll ts).filter (·.isA .functionBlock)

theorem Tree.functionsAll_append (ts us : List Tree) :
    functionsAll (ts ++ us) = functionsAll ts ++ functionsAll us := by
  simp [functionsAll]

theorem Tree.functionsAll_node (rule : Rule) (line : Option Coord) (ps : List Tree) :
    functionsAll [node rule line ps] =
      (if rule = .functionBlock then [node rule line ps] else []) ++ functionsAll ps := by
  by_cases h : rule = .functionBlock <;> simp [functionsAll, walkAll, walk, isA, rule?, h]

namespace Check

variable {g : Grammar} {rule : Rule} {line l : Option Coord} {front back ts ts' : List Tree} {t t' : Tree} {f : Frame} {o : Owner}
  {place : Hole} {features : Features} {registry : Option Registry} {root : Scope}

/-! ## Functions around a block -/

/-- Two declarations of a function say the same of it. -/
def SameSignature (t t' : Tree) : Prop := ∀ functions, signature functions t' = signature functions t

theorem SameSignature.refl (t : Tree) : SameSignature t t := fun _ => rfl

/-- Two rows of trees declare functions of which they say the same. -/
def SameSignatures (ts ts' : List Tree) : Prop :=
  List.Forall₂ SameSignature (Tree.functionsAll ts) (Tree.functionsAll ts')

theorem SameSignatures.refl (ts : List Tree) : SameSignatures ts ts :=
  List.forall₂_same.2 fun t _ => .refl t

theorem SameSignatures.within (h : SameSignatures [t] [t']) :
    SameSignatures (front ++ t :: back) (front ++ t' :: back) := by
  rw [SameSignatures, ← List.singleton_append, ← List.singleton_append (l := back)]
  simp only [Tree.functionsAll_append]
  exact List.rel_append (SameSignatures.refl front) (List.rel_append h (SameSignatures.refl back))

theorem SameSignatures.around (h : SameSignatures [t] [t'])
    (hf : f.rule = .functionBlock → SameSignature (f.around t) (f.around t')) :
    SameSignatures [f.around t] [f.around t'] := by
  unfold SameSignatures Frame.around
  rw [Tree.functionsAll_node, Tree.functionsAll_node]
  refine List.rel_append ?_ h.within
  split
  · rename_i hrule
    exact .cons (hf hrule) .nil
  · exact .nil

theorem SameSignatures.block (h : SameSignatures ts ts') :
    SameSignatures [.node .block l ts] [.node .block l ts'] := by
  unfold SameSignatures
  rw [Tree.functionsAll_node, Tree.functionsAll_node]
  exact h

theorem sameSignature_cut (h : (Tree.firstTokenOf? front).isSome = true) :
    SameSignature (.node .functionBlock line (front ++ .node .block l ts :: back))
      (.node .functionBlock line (front ++ .node .block l ts' :: back)) := by
  intro functions
  unfold signature
  simp only [line?_cut h, Tree.token?, Tree.tokens, Tree.findAll, Tree.find?, Tree.parts, List.filterMap_append,
    List.filterMap_cons, Tree.asToken?, List.filter_append, List.filter_cons, List.find?_append, List.find?_cons,
    Tree.isA, Tree.rule?]
  rfl

theorem SameSignatures.owner (h : SameSignatures ts ts') (ho : o.Stands g) :
    SameSignatures [o.around ts] [o.around ts'] := by
  obtain ⟨f, branch, line, isBranch⟩ := o
  cases branch with
  | none => exact SameSignatures.around h.block fun _ => sameSignature_cut ho.2.start
  | some b =>
    obtain ⟨hr, -⟩ : f.rule.Branches b.rule ∧ _ := ho
    refine SameSignatures.around (SameSignatures.around h.block fun hb => ?_) fun hf => ?_
    · exact absurd (isBranch b rfl) (by simp [hb, Rule.isBranch])
    · rcases hr.owner with h | h <;> rw [hf] at h <;> cases h

/-- Nothing but the statements at its end declares other functions on the way. -/
theorem SameSignatures.hole (h : SameSignatures ts ts') (hp : place.Stands g) :
    SameSignatures (place.fill ts) (place.fill ts') := by
  induction place with
  | here => exact h
  | inside before o rest after ih => exact ((ih hp.2).owner hp.1).within

theorem SameSignatures.signatures (h : SameSignatures ts ts') :
    signatures (.of .start ts') = signatures (.of .start ts) := by
  have hfold : ∀ {us us' : List Tree}, List.Forall₂ SameSignature us us' → ∀ functions,
      us'.foldlM signature functions = us.foldlM signature functions := by
    intro us us' hu
    induction hu with
    | nil => exact fun _ => rfl
    | cons hu _ ih =>
      intro functions
      rw [List.foldlM_cons, List.foldlM_cons, hu functions]
      simp only [ih]
  have hwalk : ∀ us, (Tree.walk (.of .start us)).filter (·.isA .functionBlock) = Tree.functionsAll us := by
    simp [Tree.walk, Tree.functionsAll, Tree.isA, Tree.rule?]
  unfold Check.signatures
  rw [hwalk, hwalk]
  exact hfold h .empty

/-! ## Stories -/

/-- Where the check of a story starts. -/
def State.initial (root : Scope) : State := { scopes := .ofRoot root, reports := [], services := .empty }

/-- What the check of a story does around some statements: what is known for them, where their
check starts, what is made of what is around them, what is reported after them and which
variables the story has in the end. -/
structure Surroundings where
  env : Env
  start : State
  place : Hole
  after : List Diagnostic
  scope : Scope

/-- Statements at that place that declare those functions are checked in these surroundings. -/
structure Surroundings.Surround (u : Surroundings) (features : Features) (registry : Option Registry)
    (root : Scope) (place : Hole) (functions : List Tree) : Prop where
  env : u.env.features = features ∧ u.env.registry = registry
  address : u.place.address = place.address
  /-- A function around them is kept. -/
  frame : ∀ f ∈ place.frame?, f.rule = .functionBlock → u.place.frame? = some f
  stops : ∀ ts, Tree.functionsAll ts = functions → ∀ fault, statements u.env .open ts u.start = .error fault →
    story features registry root (.of .start (place.fill ts)) = .error (.internal .registryFailed)
  goesOn : ∀ ts, Tree.functionsAll ts = functions → ∀ made last,
    statements u.env .open ts u.start = .ok (made, last) → ∃ inside services,
      last.reports = inside.reverse ++ u.start.reports ∧
      story features registry root (.of .start (place.fill ts)) = .ok (.of .start (u.place.fill made),
        { diagnostics := u.start.reports.reverse ++ inside ++ u.after, services, functions := u.env.functions
          scope := u.scope })

/-- The check of a story stops whatever the statements at some place are, or it gets there
and goes on from there in the same way. -/
theorem story_around (h : place.Stands g) (hp : place ≠ .here) (features : Features) (registry : Option Registry)
    (root : Scope) (ts₀ : List Tree) :
    (∀ ts, Tree.functionsAll ts = Tree.functionsAll ts₀ →
      story features registry root (.of .start (place.fill ts)) = .error (.internal .registryFailed)) ∨
    ∃ u : Surroundings, u.Surround features registry root place (Tree.functionsAll ts₀) ∧
      u.start.scopes.root = root ∧ ∃ functions s, signatures (.of .start (place.fill ts₀)) (.initial root) =
        .ok (functions, s) ∧ ComesTo ⟨features, registry, functions, none⟩ place u.env u.start := by
  let s₀ : State := .initial root
  obtain ⟨functions, s₁, hsignatures, hscopes⟩ : ∃ functions s₁,
      signatures (.of .start (place.fill ts₀)) s₀ = .ok (functions, s₁) ∧ s₁.scopes = s₀.scopes := by
    have hq := logs_signatures (r := none) (t := .of .start (place.fill ts₀)) s₀
    split at hq
    · rename_i functions s₁ hs
      exact ⟨functions, s₁, hs, hq.1.1⟩
    · cases hq
  let e : Env := ⟨features, registry, functions, none⟩
  let s₂ : State := { s₁ with scopes := s₁.scopes.push }
  have hrun : ∀ ts, Tree.functionsAll ts = Tree.functionsAll ts₀ →
      tree features registry (.of .start (place.fill ts)) s₀ =
        (statements e .open (place.fill ts) >>= fun made => pure (.of .start made, functions)) s₂ := by
    intro ts hts
    have hsame : SameSignatures ts₀ ts := by
      rw [SameSignatures, hts]
      exact SameSignatures.refl ts₀
    unfold tree
    rw [(hsame.hole h).signatures, bind_ok hsignatures]
    rfl
  have hlevel : s₂.scopes.inner.length = 0 + 1 := by
    simp [s₂, hscopes, s₀, State.initial, Scopes.push, Scopes.ofRoot]
  have hstops : ∀ {ts fault}, Tree.functionsAll ts = Tree.functionsAll ts₀ →
      statements e .open (place.fill ts) s₂ = .error fault →
      story features registry root (.of .start (place.fill ts)) = .error (.internal .registryFailed) := by
    intro ts fault hts hfault
    have hstory : story features registry root (.of .start (place.fill ts)) = .error fault := by
      change tree features registry _ s₀ >>= _ = _
      rw [hrun ts hts, bind_error hfault]
      rfl
    rw [hstory, story_fault hstory]
  rcases (encloses_hole (k := 0) (e := e) h hp .open).ends s₂ hlevel with hall | hends
  · refine .inl fun ts hts => ?_
    obtain ⟨fault, hfault⟩ := hall ts
    exact hstops hts hfault
  · obtain ⟨e', start, _, before, after, last, hcomes, ⟨place', rfl, haddress, hframe⟩, hbefore, hroot, -, hmade⟩ := hends
    obtain ⟨body, rfl⟩ := hcomes.1
    refine .inr ⟨⟨{ e with body }, start, place', after.reverse, last.top⟩,
      ⟨⟨rfl, rfl⟩, haddress, hframe, fun ts hts fault hfault => hstops hts ((hmade ts).1 fault hfault), ?_⟩, ?_, ?_⟩
    · intro ts hts made t ht
      obtain ⟨inside, services, hinside, hdone⟩ := (hmade ts).2 made t ht
      refine ⟨inside.reverse, services.names, by rw [hinside, List.reverse_reverse], ?_⟩
      change tree features registry _ s₀ >>= _ = _
      rw [hrun ts hts, bind_ok hdone]
      have hreports : (after ++ (inside ++ start.reports)).reverse =
          start.reports.reverse ++ inside.reverse ++ after.reverse := by simp
      exact congrArg (fun found => Except.ok (_, Analysis.mk found _ _ _)) hreports
    · rw [hroot]
      simp [s₂, hscopes, s₀, State.initial, Scopes.push, Scopes.ofRoot]
    · exact ⟨functions, s₁, hsignatures, hcomes⟩

end Check

end StoryLang

namespace StoryLang.Check

/-! ## Bodies of functions in different surroundings -/

variable {e : Env} {g : Grammar} {f : Frame} {l l' : Option Coord} {outside outside' body body' : Option Body}
  {s s' t t' : State}

/-- What is done before the body of a function is checked. -/
theorem entering_function (hf : f.OwnsBlock g) (hr : f.rule = .functionBlock) :
    ∃ name returns line names tys, ∀ e l, entering e (f.around (.node .block l [])) =
      push >>= fun _ => topNumber >>= fun floor => declareAll line names tys >>= fun _ =>
        pure (some ⟨name, returns, floor⟩) := by
  obtain ⟨rule, line, front, back⟩ := f
  obtain rfl : rule = .functionBlock := hr
  obtain ⟨name, hname⟩ := exists_nameOf? hf.headed back
  refine ⟨name.literal, spelledOrAny (returnTypes (front ++ back)), (Tree.node .functionBlock line front).line?,
    (((front ++ back).filter (·.isA .parameter)).filterMap parameter?).map (·.1),
    (((front ++ back).filter (·.isA .parameter)).filterMap parameter?).map (·.2), fun e l => ?_⟩
  unfold entering Frame.around
  simp only [nameOf?_cut, hname, returnTypes_cut, parameters_cut, line?_cut hf.start]

/-- Two bodies of one function start with the same names in their scope, and see the same. -/
theorem enters_alike (hf : f.OwnsBlock g) (hr : f.rule = .functionBlock) (hg : e.features.globals = false)
    (hs : entering { e with body := outside } (f.around (.node .block l [])) s = .ok (body, t))
    (hs' : entering { e with body := outside' } (f.around (.node .block l' [])) s' = .ok (body', t'))
    (hroot : t'.scopes.root = t.scopes.root) :
    Env.Sees { e with body } { e with body := body' } s.scopes.inner s'.scopes.inner ∧
      Mirror 1 s.scopes.inner s'.scopes.inner s.scopes.root s.reports s'.reports t t' := by
  obtain ⟨name, returns, line, names, tys, hentering⟩ := entering_function hf hr
  rw [hentering] at hs hs'
  -- both push a scope, whose number counts those below, and declare the parameters
  obtain ⟨_, _, hpush, hs⟩ := bind_ok_iff.1 hs
  obtain ⟨_, _, hpush', hs'⟩ := bind_ok_iff.1 hs'
  obtain ⟨floor, _, hfloor, hs⟩ := bind_ok_iff.1 hs
  obtain ⟨floor', _, hfloor', hs'⟩ := bind_ok_iff.1 hs'
  obtain ⟨⟩ := hpush
  obtain ⟨⟩ := hpush'
  obtain ⟨⟩ := hfloor
  obtain ⟨⟩ := hfloor'
  obtain ⟨_, _, hdeclare, hs⟩ := bind_ok_iff.1 hs
  obtain ⟨_, _, hdeclare', hs'⟩ := bind_ok_iff.1 hs'
  obtain ⟨⟩ := hs
  obtain ⟨⟩ := hs'
  have hleaves : t.scopes.root = s.scopes.root :=
    (Reflects.leaves (k := s.scopes.inner.length + 1) (mirrors_declareAll line names tys) rfl hdeclare).2.1
  have hleaves' : t'.scopes.root = s'.scopes.root :=
    (Reflects.leaves (k := s'.scopes.inner.length + 1) (mirrors_declareAll line names tys) rfl hdeclare').2.1
  rw [hleaves, hleaves'] at hroot
  have hm : Mirror 1 s.scopes.inner s'.scopes.inner s.scopes.root s.reports s'.reports
      { s with scopes := s.scopes.push } { s' with scopes := s'.scopes.push } :=
    ⟨⟨[.empty], rfl, rfl, by rw [← hroot]; rfl⟩, [], rfl, rfl⟩
  have hdeclared := mirrors_declareAll line names tys _ _ _ _ _ hm
  rw [hdeclare, hdeclare'] at hdeclared
  cases hdeclared with
  | ok results =>
    refine ⟨?_, results.2⟩
    have hfloor : ∀ s : State, s.scopes.push.depth - 1 = 1 + s.scopes.inner.length := by
      simp [Scopes.push, Scopes.depth, Nat.add_comm]
    simp only [hfloor]
    exact .inBody rfl rfl rfl (Nat.le_refl 1) (fun h => by simp [hg] at h) _ _

/-- Statements of a body are checked alike wherever its function is declared: they become the
same and the same is reported of them. -/
theorem statements_alike {ts made : List Tree} {last : State} (hf : f.OwnsBlock g) (hr : f.rule = .functionBlock)
    (hg : e.features.globals = false)
    (hs : entering { e with body := outside } (f.around (.node .block l [])) s = .ok (body, t))
    (hs' : entering { e with body := outside' } (f.around (.node .block l' [])) s' = .ok (body', t'))
    (hroot : t'.scopes.root = t.scopes.root) (h : statements { e with body } .open ts t = .ok (made, last)) :
    ∃ inside last', last.reports = inside ++ t.reports ∧
      statements { e with body := body' } .open ts t' = .ok (made, last') ∧ last'.reports = inside ++ t'.reports := by
  obtain ⟨hsees, hm⟩ := enters_alike hf hr hg hs hs' hroot
  have hm : Mirror 1 s.scopes.inner s'.scopes.inner s.scopes.root t.reports t'.reports t t' :=
    ⟨hm.scopes, [], rfl, rfl⟩
  have hmade := hsees.statements (k := 0) .open ts _ _ _ _ _ hm
  rw [h] at hmade
  generalize statements { e with body := body' } .open ts t' = x at hmade
  cases hmade with
  | @ok _ out results =>
    obtain ⟨made', last'⟩ := out
    obtain ⟨rfl, -, inside, hinside, hinside'⟩ := results
    exact ⟨inside, last', hinside, rfl, hinside'⟩

end StoryLang.Check

/-! ## Stories -/

namespace StoryLang

/-! ## A block between others -/

/-- A statement, an `if` that ends with its block, and another statement. -/
def Tree.ifBetween (fits : List Tree → Bool) : Tree → Bool
  | .node .start none [_, .node .ifBlock _ [_, _, .node .block _ body], _] => fits body
  | _ => false

/-- A statement and a function behind it. -/
def Tree.functionBehind (fits : Tree → Tree → Bool) : Tree → Bool
  | .node .start none [first, .node .functionBlock line [word, name, .node .block l body]] =>
    fits first (.node .functionBlock line [word, name, .node .block l body])
  | _ => false

namespace Story

variable {s : Story} {o : Options} {place place' : Hole} {f : Frame}

/-- The statements at any place of the plain tree of a story are statements in plain form. -/
theorem tree_formed {t : Tree} (hg : o.grammarInUse.Accepted) (ht : s.tree o true = .ok t) :
    ∃ trees, t = .of .start trees ∧ ∀ p ∈ trees, Formed Token.Sound o.grammarInUse .plain p ∧ p.isStatement = true := by
  unfold tree at ht
  split at ht
  · cases ht
  · rename_i f hf
    dsimp only at ht
    split at ht
    · cases ht
    · rename_i ts hts
      have h := hoistedTreeOf_gives (m := modeOf o f) hg.keepsLayout hts
      simp only [if_true] at ht
      cases hh : hoistedTreeOf (modeOf o f) ts with
      | error fault => simp [hh] at ht
      | ok t' =>
        obtain rfl : t' = t := by simpa [hh] using ht
        rw [hh] at h
        obtain ⟨trees, lines, rfl, hplain⟩ := h
        exact ⟨trees, rfl, hplain.formed⟩

theorem place_stands {ts : List Tree} (hg : o.grammarInUse.Accepted) (ht : s.tree o true = .ok (.of .start (place.fill ts))) :
    place.Stands o.grammarInUse := by
  obtain ⟨trees, heq, hformed⟩ := tree_formed hg ht
  obtain rfl : place.fill ts = trees := by simpa using heq
  exact Hole.stands hformed

/-- The statements of a block can be replaced by any others that declare the same functions, so
by any without a function if it has none. Unless the registry fails whatever they are, they
are checked from the same start, and the reports before and after theirs, the tree around
them and the variables of the story stay the same. -/
theorem block_replaced {ts₀ : List Tree} (hg : o.grammarInUse.Accepted)
    (ht : s.tree o true = .ok (.of .start (place.fill ts₀))) (hp : place ≠ .here) (features : Features)
    (registry : Option Registry) (root : Scope) :
    (∀ ts, Tree.functionsAll ts = Tree.functionsAll ts₀ →
      Check.story features registry root (.of .start (place.fill ts)) = .error (.internal .registryFailed)) ∨
    ∃ u : Check.Surroundings, u.Surround features registry root place (Tree.functionsAll ts₀) :=
  (Check.story_around (place_stands hg ht) hp features registry root ts₀).imp id fun ⟨u, hu, _⟩ => ⟨u, hu⟩

/-- The block of an `if` between two statements. -/
theorem block_replaced_if : Grammar.builtIn.Accepted ∧ ∃ (place : Hole) (ts₀ : List Tree),
    (unnamed "a = 1\nif a == 1\n    x = y\nz = x\n").tree .standard true = .ok (.of .start (place.fill ts₀)) ∧
    place ≠ .here ∧ Tree.functionsAll ts₀ = [] ∧
    ∃ u : Check.Surroundings, u.Surround .off none .empty place (Tree.functionsAll ts₀) := by
  refine ⟨.builtIn, ?_⟩
  have h : ((unnamed "a = 1\nif a == 1\n    x = y\nz = x\n").tree .standard true).toOption.any (fun t =>
      t.ifBetween (fun body => (Tree.functionsAll body).isEmpty) && (Check.story .off none .empty t).toOption.isSome) =
        true := by
    decide +kernel
  obtain ⟨t, ht, h⟩ := (Option.any_eq_true _ _).1 h
  rw [toOption_eq_some] at ht
  obtain ⟨hfree, hruns⟩ := Bool.and_eq_true_iff.1 h
  unfold Tree.ifBetween at hfree
  split at hfree
  · rename_i first line word condition l body last
    let place : Hole := .inside [first] ⟨⟨.ifBlock, line, [word, condition], []⟩, none, l, nofun⟩ .here [last]
    have hplace : place ≠ .here := nofun
    refine ⟨place, body, ht, hplace, List.isEmpty_iff.1 hfree, ?_⟩
    rcases block_replaced (o := .standard) .builtIn ht hplace .off none .empty with hall | hu
    · obtain ⟨out, hout⟩ := Option.isSome_iff_exists.1 hruns
      have hstory := (hall body rfl).symm.trans (toOption_eq_some.1 hout)
      cases hstory
    · exact hu
  · cases hfree

/-- Without the variables of the story, what is found out about the body of a function does not
depend on what stands outside of functions: in two stories that declare the same functions,
the same is reported of its statements, and they become the same. -/
theorem body_closed {body : List Tree} (hg : o.grammarInUse.Accepted)
    (ht : s.tree o true = .ok (.of .start (place.fill body))) (hf : place.frame? = some f)
    (hr : f.rule = .functionBlock) (hp' : place'.Stands o.grammarInUse) (hf' : place'.frame? = some f)
    (hsame : Tree.functionsAll (place'.fill body) = Tree.functionsAll (place.fill body))
    {features : Features} (hglobals : features.globals = false) {registry : Option Registry} {root : Scope}
    {t t' : Tree} {a a' : Analysis}
    (h : Check.story features registry root (.of .start (place.fill body)) = .ok (t, a))
    (h' : Check.story features registry root (.of .start (place'.fill body)) = .ok (t', a')) :
    ∃ (u u' : Check.Surroundings) (made : List Tree) (last last' : Check.State) (inside : List Diagnostic),
      (u.Surround features registry root place (Tree.functionsAll body) ∧
        Check.statements u.env .open body u.start = .ok (made, last) ∧
        last.reports = inside.reverse ++ u.start.reports ∧
        t = .of .start (u.place.fill made) ∧ u.place.frame? = some f ∧
        a.diagnostics = u.start.reports.reverse ++ inside ++ u.after) ∧
      u'.Surround features registry root place' (Tree.functionsAll body) ∧
        Check.statements u'.env .open body u'.start = .ok (made, last') ∧
        last'.reports = inside.reverse ++ u'.start.reports ∧
        t' = .of .start (u'.place.fill made) ∧ u'.place.frame? = some f ∧
        a'.diagnostics = u'.start.reports.reverse ++ inside ++ u'.after := by
  have hp := place_stands hg ht
  have hhere : ∀ {q : Hole}, q.frame? = some f → q ≠ .here := by
    rintro q hq rfl
    cases hq
  rcases Check.story_around hp (hhere hf) features registry root body with hall | ⟨u, hu, hroot, functions, s₁, hs₁, hcomes⟩
  · rw [hall body rfl] at h
    cases h
  rcases Check.story_around hp' (hhere hf') features registry root body with
    hall | ⟨u', hu', hroot', functions', s₁', hs₁', hcomes'⟩
  · rw [hall body rfl] at h'
    cases h'
  have hsignatures : Check.SameSignatures (place.fill body) (place'.fill body) := by
    rw [Check.SameSignatures, hsame]
    exact Check.SameSignatures.refl _
  rw [hsignatures.signatures, hs₁] at hs₁'
  obtain ⟨rfl, rfl⟩ := Prod.mk.inj (Except.ok.inj hs₁')
  obtain ⟨outside, l, s₂, b, hentering, henv⟩ := hcomes.2 f hf hr
  obtain ⟨outside', l', s₂', b', hentering', henv'⟩ := hcomes'.2 f hf' hr
  cases hmade : Check.statements u.env .open body u.start with
  | error fault =>
    rw [hu.stops body rfl fault hmade] at h
    cases h
  | ok out =>
    obtain ⟨made, last⟩ := out
    obtain ⟨reported, last', hlast, hmade', hlast'⟩ := Check.statements_alike (hp.ownsBlock f hf) hr hglobals hentering
      hentering' (hroot'.trans hroot.symm) (henv ▸ hmade)
    rw [← henv'] at hmade'
    obtain ⟨inside, services, hinside, hstory⟩ := hu.goesOn body rfl made last hmade
    obtain ⟨inside', services', hinside', hstory'⟩ := hu'.goesOn body rfl made last' hmade'
    obtain rfl : reported = inside.reverse := List.append_cancel_right (hlast.symm.trans hinside)
    obtain rfl : inside = inside' :=
      List.reverse_injective (List.append_cancel_right (hlast'.symm.trans hinside'))
    obtain ⟨rfl, rfl⟩ := Prod.mk.inj (Except.ok.inj (h.symm.trans hstory))
    obtain ⟨rfl, rfl⟩ := Prod.mk.inj (Except.ok.inj (h'.symm.trans hstory'))
    exact ⟨u, u', made, last, last', inside, ⟨hu, hmade, hinside, rfl, hu.frame f hf hr, rfl⟩,
      hu', hmade', hinside', rfl, hu'.frame f hf' hr, rfl⟩

/-- A function with and without a variable of the story in front of it. -/
theorem body_closed_variable : Grammar.builtIn.Accepted ∧ ∃ (place place' : Hole) (f : Frame) (body : List Tree),
    (unnamed "x = 1\nfunction f\n    y = x\n    b c\n").tree .standard true = .ok (.of .start (place.fill body)) ∧
    place.frame? = some f ∧ f.rule = .functionBlock ∧ place'.Stands .builtIn ∧ place'.frame? = some f ∧
    Tree.functionsAll (place'.fill body) = Tree.functionsAll (place.fill body) ∧
    ∃ t a t' a', Check.story .off none .empty (.of .start (place.fill body)) = .ok (t, a) ∧
      Check.story .off none .empty (.of .start (place'.fill body)) = .ok (t', a') ∧
      ∃ (u u' : Check.Surroundings) (made : List Tree) (inside : List Diagnostic),
        t = .of .start (u.place.fill made) ∧ t' = .of .start (u'.place.fill made) ∧
        a.diagnostics = u.start.reports.reverse ++ inside ++ u.after ∧
        a'.diagnostics = u'.start.reports.reverse ++ inside ++ u'.after := by
  refine ⟨.builtIn, ?_⟩
  have h : ((unnamed "x = 1\nfunction f\n    y = x\n    b c\n").tree .standard true).toOption.any (fun t =>
      t.functionBehind (fun first f => (Tree.functionsAll [first]).isEmpty &&
          (Check.story .off none .empty (.of .start [f])).toOption.isSome) &&
        (Check.story .off none .empty t).toOption.isSome) = true := by
    decide +kernel
  obtain ⟨t, ht, h⟩ := (Option.any_eq_true _ _).1 h
  rw [toOption_eq_some] at ht
  obtain ⟨hshape, hruns⟩ := Bool.and_eq_true_iff.1 h
  unfold Tree.functionBehind at hshape
  split at hshape
  · rename_i first line word name l body
    obtain ⟨hfree, hruns'⟩ := Bool.and_eq_true_iff.1 hshape
    let o : Owner := ⟨⟨.functionBlock, line, [word, name], []⟩, none, l, nofun⟩
    let place : Hole := .inside [first] o .here []
    let place' : Hole := .inside [] o .here []
    have htree : (unnamed "x = 1\nfunction f\n    y = x\n    b c\n").tree .standard true =
        .ok (.of .start (place.fill body)) := ht
    have hplace : place.Stands .builtIn := place_stands (o := .standard) .builtIn htree
    have hstands : place'.Stands .builtIn := hplace
    have hsame : Tree.functionsAll (place'.fill body) = Tree.functionsAll (place.fill body) := by
      change _ = Tree.functionsAll ([first] ++ [o.around body])
      rw [Tree.functionsAll_append, List.isEmpty_iff.1 hfree]
      rfl
    obtain ⟨⟨t, a⟩, hruns⟩ := Option.isSome_iff_exists.1 hruns
    obtain ⟨⟨t', a'⟩, hruns'⟩ := Option.isSome_iff_exists.1 hruns'
    have hruns := toOption_eq_some.1 hruns
    have hruns' := toOption_eq_some.1 hruns'
    obtain ⟨u, u', made, _, _, inside, h, h'⟩ := body_closed (o := .standard) .builtIn htree rfl rfl
      hstands rfl hsame rfl hruns hruns'
    exact ⟨place, place', o.statement, body, ht, rfl, rfl, hstands, rfl, hsame, t, a, t', a', hruns, hruns', u, u',
      made, inside, h.2.2.2.1, h'.2.2.2.1, h.2.2.2.2.2, h'.2.2.2.2.2⟩
  · cases hshape

end Story

end StoryLang
