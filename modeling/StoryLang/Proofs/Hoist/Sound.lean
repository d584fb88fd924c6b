/-
Making a tree plain keeps to the relation, and fails with faults of the story only.

`Hoist.Ensures faults x i post` is the contract of an action: if it succeeds,
it issues some coordinates and `post` holds, and if it fails, the fault is
among `faults`. A tree that was read is formed, which rules out the defects;
the bound on strings in codes is no fault either, since codes get shorter.
That takes strings that stay on their line. For any others the contract is
used with all faults allowed.

What else can fail is a condition that may have nothing taken out. `Refusals`
says of a tree that the faults of its conditions are allowed, so that it can be
told which of them a fault comes from.
-/
import StoryLang.Proofs.Hoist.Job
import StoryLang.Proofs.Tree.Names
import StoryLang.Proofs.Tree.Yield

namespace StoryLang.Hoist

variable {α β : Type} {i : Issued} {m : ScanMode} {code : Nat → Tree → Hoist (Out Tree)}
  {base : Nat} {faults : Fault → Prop}

/-- If the action succeeds, it issues coordinates with which `post` holds of
its outcome; if it fails, the fault is one of those allowed. -/
def Ensures (faults : Fault → Prop) (x : Hoist α) (i : Issued) (post : α → List Coord → Prop) :
    Prop :=
  match x i with
  | .ok (a, i') => ∃ cs, i.Runs cs i' ∧ post a cs
  | .error f => faults f

theorem ensures_pure {a : α} {post : α → List Coord → Prop} (h : post a []) :
    Ensures faults (pure a) i post :=
  ⟨[], .nil, h⟩

theorem Ensures.mono {x : Hoist α} {post post' : α → List Coord → Prop}
    (h : Ensures faults x i post) (hp : ∀ a cs, post a cs → post' a cs) : Ensures faults x i post' := by
  unfold Ensures at *
  cases hx : x i with
  | ok p =>
    rw [hx] at h
    obtain ⟨cs, hr, h⟩ := h
    exact ⟨cs, hr, hp _ _ h⟩
  | error f => rw [hx] at h; exact h

theorem Ensures.bind {x : Hoist α} {f : α → Hoist β} {mid : α → List Coord → Prop}
    {post : β → List Coord → Prop} (h : Ensures faults x i mid)
    (hf : ∀ a i' cs, mid a cs → Ensures faults (f a) i' fun b ds => post b (cs ++ ds)) :
    Ensures faults (x >>= f) i post := by
  unfold Ensures at h ⊢
  simp only [Bind.bind, StateT.bind, Except.bind]
  cases hx : x i with
  | error e => rw [hx] at h; exact h
  | ok p =>
    rw [hx] at h
    obtain ⟨cs, hr, hm⟩ := h
    have h' := hf p.1 p.2 cs hm
    unfold Ensures at h'
    dsimp only
    cases hy : f p.1 p.2 with
    | error e => rw [hy] at h'; exact h'
    | ok q =>
      rw [hy] at h'
      obtain ⟨ds, hr', hp⟩ := h'
      exact ⟨cs ++ ds, hr.append hr', hp⟩

theorem ensures_fail {f : Fault} {post : α → List Coord → Prop} (h : faults f) :
    Ensures faults (fail f) i post := h

theorem ensures_takeOut {value : Out Tree} (post : Out Tree → List Coord → Prop)
    (h : ∀ seq, post ⟨value.before ++ [Coord.assignment ⟨base, seq⟩ value.left],
      reading ⟨base, seq⟩ value.left⟩ [⟨base, seq⟩]) :
    Ensures faults (takeOut base value) i post :=
  ⟨_, .cons base .nil, h _⟩

/-- The action does a job under a line. -/
def Does (faults : Fault → Prop) (m : ScanMode) (base : Nat) (job : Job) (trees : α → List Tree) (x : Hoist (Out α)) :
    Prop :=
  ∀ i, Ensures faults x i fun out cs => Hoists m base job cs out.before (trees out.left)

/-- The one tree that is left. -/
abbrev one (t : Tree) : List Tree := [t]

theorem Does.bind {job : Job} {trees : α → List Tree} {x : Hoist (Out α)} {f : Out α → Hoist β}
    {post : β → List Coord → Prop} (h : Does faults m base job trees x)
    (hf : ∀ out i' cs, Hoists m base job cs out.before (trees out.left) →
      Ensures faults (f out) i' fun b ds => post b (cs ++ ds)) :
    Ensures faults (x >>= f) i post :=
  (h i).bind hf

/-- The fault for what was taken out of a condition. -/
def refusal (construct : String) (token : Token) (call : Tree) : Fault :=
  .inTokens
    { code := .callInCondition, args := [construct]
      position := call.position?.getD token.position, token, expected := [] }

/-- Wherever something is taken out of a condition in the tree that may have
nothing taken out, the fault is among those allowed. -/
def Refusals (faults : Fault → Prop) (m : ScanMode) (t : Tree) : Prop :=
  ∀ rule line ps, .node rule line ps ∈ t.walk → ∀ role construct token,
    treatment role rule = .guarded construct → Tree.firstTokenOf? ps = some token →
      ∀ base cs call before left,
        Hoists m base (.row (ps.map (.part, ·))) cs (call :: before) left →
          faults (refusal construct token call)

theorem refusals_ofStory (hf : ∀ f : Fault, f.OfStory → faults f) (t : Tree) : Refusals faults m t :=
  fun _ _ _ _ _ _ _ _ _ _ _ _ _ _ _ => hf _ rfl

theorem Refusals.part {rule : Rule} {line : Option Coord} {ps : List Tree}
    (h : Refusals faults m (.node rule line ps)) : ∀ p ∈ ps, Refusals faults m p :=
  fun _ hp rule' line' ps' hn => h rule' line' ps' (Tree.walk_part hp hn)

/-! ## Rows -/

theorem parts_does {ts : List Tree}
    (h : ∀ t ∈ ts, Does faults m base (.tree .part t) one (tree m code base .part t)) :
    Does faults m base (.row (ts.map (.part, ·))) id (parts m code base ts) := by
  induction ts with
  | nil => exact fun i => ensures_pure .none
  | cons t ts ih =>
    intro i
    simp only [List.forall_mem_cons] at h
    refine h.1.bind fun first i' cs hf => (ih h.2).bind fun rest i'' ds hr => ensures_pure ?_
    simpa using Hoists.cons hf hr

theorem partsLast_does {role : Role} {ts : List Tree} {last : Tree}
    (h : ∀ t ∈ ts, Does faults m base (.tree .part t) one (tree m code base .part t))
    (hl : Does faults m base (.tree role last) one (tree m code base role last)) :
    Does faults m base (.row (ts.map (.part, ·) ++ [(role, last)])) id
      (partsLast m code base role (ts ++ [last])) := by
  induction ts with
  | nil =>
    intro i
    refine hl.bind fun out i' cs hf => ensures_pure ?_
    simpa using Hoists.cons hf .none
  | cons t ts ih =>
    intro i
    simp only [List.forall_mem_cons] at h
    have hc : partsLast m code base role (t :: ts ++ [last]) = (do
        let first ← tree m code base .part t
        let rest ← partsLast m code base role (ts ++ [last])
        return ⟨first.before ++ rest.before, first.left :: rest.left⟩) := by
      cases ts <;> rfl
    rw [hc]
    refine h.1.bind fun first i' cs hf => (ih h.2).bind fun rest i'' ds hr => ensures_pure ?_
    simpa using Hoists.cons hf hr

/-! ## Chains and strings -/

theorem chain_does {link : Tree → Tree → Tree} {before : List Tree} {subject : Tree}
    {fragments : List Tree} (hne : fragments ≠ []) :
    Ensures faults (chain base link before subject fragments) i fun out cs =>
      ∃ taken, out.before = before ++ taken ∧
        Hoists m base (.chain link subject fragments) cs taken [out.left] := by
  induction fragments generalizing link before subject i with
  | nil => exact absurd rfl hne
  | cons fragment fragments ih =>
    cases fragments with
    | nil => exact ensures_pure ⟨[], by simp, .lastLink⟩
    | cons next fragments =>
      unfold chain
      refine (ensures_takeOut (fun out cs => ∃ seq, cs = [⟨base, seq⟩] ∧
        out = ⟨before ++ [Coord.assignment ⟨base, seq⟩ (link subject fragment)],
          reading ⟨base, seq⟩ (link subject fragment)⟩) fun seq => ⟨seq, rfl, rfl⟩).bind ?_
      rintro out i' cs ⟨seq, rfl, rfl⟩
      refine (ih (by simp)).mono fun out cs ⟨taken, hb, hh⟩ => ?_
      exact ⟨_, by simpa using hb, .link hh⟩

/-- The code of a string's token is read and made plain. -/
def DoesCode (faults : Fault → Prop) (m : ScanMode) (code : Nat → Tree → Hoist (Out Tree))
    (base : Nat) (t : Token) : Prop :=
  ∀ source offset, .code source offset ∈ Pieces.split t.literal.toList →
    match readCode m source ⟨t.line, t.column + 1 + offset⟩ with
    | .ok v => Does faults m base (.code v) one (code base v)
    | .error f => faults f

theorem pieces_does {t : Token} (hc : DoesCode faults m code base t) {ps : List Piece}
    (hp : ∀ p ∈ ps, p ∈ Pieces.split t.literal.toList) :
    Does faults m base (.pieces t ps) id (pieces m (code base) t ps) := by
  induction ps with
  | nil => exact fun i => ensures_pure .noPieces
  | cons p ps ih =>
    intro i
    simp only [List.forall_mem_cons] at hp
    have ih := ih hp.2
    unfold pieces
    cases p with
    | text raw =>
      simp only [piece, pure_bind]
      refine ih.bind fun rest i' cs hr => ensures_pure ?_
      simpa [Out.all] using Hoists.text hr
    | code source offset =>
      have hc := hc source offset hp.1
      unfold piece
      dsimp only
      cases hv : readCode m source ⟨t.line, t.column + 1 + offset⟩ with
      | error f => rwa [hv] at hc
      | ok v =>
        rw [hv] at hc
        simp only [bind_assoc, pure_bind]
        refine Does.bind hc fun out i' cs ho => ih.bind fun rest i'' ds hr => ensures_pure ?_
        simpa using Hoists.piece hv ho hr

theorem string_does {t : Token} (hc : DoesCode faults m code base t) {role : Role}
    {line : Option Coord} (hr : treatment role .string = .string) :
    Does faults m base (.tree role (.node .string line [.token t])) one
      (string m (code base) line [.token t]) := by
  intro i
  simp only [string]
  split
  · rename_i hcode
    refine (pieces_does hc fun _ h => h).bind fun out i' cs ho => ?_
    split
    · rename_i hleft
      rw [hleft] at ho
      cases hps : Pieces.split t.literal.toList with
      | nil => simp [Pieces.hasCode, hps] at hcode
      | cons p ps =>
        rw [hps] at ho
        generalize out.before = before at ho
        cases ho
    · rename_i first rest hleft
      refine ensures_pure ?_
      rw [hleft] at ho
      simpa using Hoists.string hr hcode ho
  · rename_i hcode
    exact ensures_pure (Hoists.plainString hr (by simpa using hcode))

/-! ## Trees -/

section Trees

variable {role : Role} {rule : Rule} {line : Option Coord} {ps : List Tree}

/-- How a node is made plain, by its treatment. -/
theorem tree_treated {how : Treatment} : treatment role rule = how →
    tree m code base role (.node rule line ps) = (match how with
      | .parts => do
        let out ← parts m code base ps
        return ⟨out.before, .node rule line out.left⟩
      | .partsOut => do
        let out ← parts m code base ps
        takeOut base ⟨out.before, .node rule line out.left⟩
      | .lastAs lastRole =>
        match ps.getLast? with
        | some (.node _ _ _) => do
          let out ← partsLast m code base lastRole ps
          return ⟨out.before, .node rule line out.left⟩
        | _ => pure (.all (.node rule line ps))
      | .chain => links m code base ps
      | .chainOut => do takeOut base (← links m code base ps)
      | .values =>
        match ps with
        | [.node inner line' ps'] =>
          if inner.isCall then tree m code base .value (.node inner line' ps')
          else do
            let out ← tree m code base .value (.node inner line' ps')
            return ⟨out.before, .node rule line [out.left]⟩
        | ps => do
          let out ← values m code base ps
          return ⟨out.before, .node rule line out.left⟩
      | .string => string m (code base) line ps
      | .statements => do return .all (.node rule line (← statements m code ps))
      | .guarded construct =>
        match Tree.firstTokenOf? ps with
        | none => fail (.internal (.noKeyword construct))
        | some token => do
          let out ← parts m code base ps
          guardCondition construct token ⟨out.before, .node rule line out.left⟩) := by
  rintro rfl
  exact tree.eq_def m code base role (.node rule line ps)

theorem tree_parts (h : treatment role rule = .parts) :
    tree m code base role (.node rule line ps) = (do
      let out ← parts m code base ps
      return ⟨out.before, .node rule line out.left⟩) :=
  tree_treated h

theorem tree_chain (h : treatment role rule = .chain) :
    tree m code base role (.node rule line ps) = links m code base ps :=
  tree_treated h

/-- What is taken out is first made plain where a call may stay. -/
theorem tree_out (h : treatment role rule = .partsOut ∨ treatment role rule = .chainOut) :
    tree m code base role (.node rule line ps) =
      tree m code base .value (.node rule line ps) >>= takeOut base := by
  have hrole : rule = .mutation ∧ treatment role rule = .chainOut ∨
      (rule = .serviceCall ∨ rule = .functionCall) ∧ treatment role rule = .partsOut := by
    cases role <;> cases rule <;> simp_all [treatment, asOperand, asValue]
  rcases hrole with ⟨rfl, h⟩ | ⟨rfl | rfl, h⟩
  · rw [@tree_chain _ _ _ .value _ _ _ rfl, tree_treated h]
  all_goals
    rw [@tree_parts _ _ _ .value _ _ _ rfl, tree_treated h]
    simp

theorem tree_guarded {construct : String} {t : Token} (h : treatment role rule = .guarded construct)
    (ht : Tree.firstTokenOf? ps = some t) :
    tree m code base role (.node rule line ps) = (do
      let out ← parts m code base ps
      guardCondition construct t ⟨out.before, .node rule line out.left⟩) := by
  rw [tree_treated h]
  simp only [ht]

theorem tree_string (h : treatment role rule = .string) :
    tree m code base role (.node rule line ps) = string m (code base) line ps :=
  tree_treated h

theorem tree_statements (h : treatment role rule = .statements) :
    tree m code base role (.node rule line ps) = (do
      return .all (.node rule line (← statements m code ps))) :=
  tree_treated h

theorem tree_last {lastRole : Role} {last : Tree} (h : treatment role rule = .lastAs lastRole)
    (hl : last.isNode = true) :
    tree m code base role (.node rule line (ps ++ [last])) = (do
      let out ← partsLast m code base lastRole (ps ++ [last])
      return ⟨out.before, .node rule line out.left⟩) := by
  rw [tree_treated h]
  simp only [List.getLast?_append, List.getLast?_singleton, Option.some_or]
  cases last with
  | token t => simp [Tree.isNode] at hl
  | node r l ps => rfl

theorem tree_lastToken {lastRole : Role} {t : Token} (h : treatment role rule = .lastAs lastRole) :
    tree m code base role (.node rule line [.token t]) =
      pure (.all (.node rule line [.token t])) :=
  tree_treated h

theorem tree_value {inner : Rule} {line' : Option Coord} {ps' : List Tree}
    (h : treatment role rule = .values) (hc : inner.isCall = false) :
    tree m code base role (.node rule line [.node inner line' ps']) = (do
      let out ← tree m code base .value (.node inner line' ps')
      return ⟨out.before, .node rule line [out.left]⟩) := by
  rw [tree_treated h]
  simp [hc]

end Trees

theorem fragments_does {ts : List Tree} (ht : ∀ t ∈ ts, t.isA .mutationFragment = true)
    (h : ∀ t ∈ ts, Does faults m base (.tree .part t) one (tree m code base .part t)) :
    Does faults m base (.row (ts.map (.part, ·))) id (fragments m code base ts) := by
  induction ts with
  | nil => exact fun i => ensures_pure .none
  | cons t ts ih =>
    intro i
    simp only [List.forall_mem_cons] at h ht
    obtain ⟨line, ps, rfl⟩ := Tree.isA_iff.1 ht.1
    have hc : fragments m code base (.node .mutationFragment line ps :: ts) = (do
        let first ← tree m code base .part (.node .mutationFragment line ps)
        let rest ← fragments m code base ts
        return ⟨first.before ++ rest.before, first.left :: rest.left⟩) := by
      rw [tree_parts rfl]
      simp [fragments]
    rw [hc]
    refine h.1.bind fun first i' cs hf => (ih ht.2 h.2).bind fun rest i'' ds hr => ensures_pure ?_
    simpa using Hoists.cons hf hr

/-- A chain is made plain from its subject on, a path like any other subject. -/
theorem links_node {subject : Tree} {fs : List Tree} (hs : subject.isNode = true) :
    links m code base (subject :: fs) = (do
      let subject ← tree m code base .operand subject
      let found ← fragments m code base fs
      chain base firstLink (subject.before ++ found.before) subject.left found.left) := by
  cases subject with
  | token t => simp [Tree.isNode] at hs
  | node rule line ps =>
    by_cases hpath : rule = .path
    · subst hpath
      rw [tree_parts rfl]
      simp [links]
    · simp [links, hpath]

/-- The links of a formed chain. -/
theorem links_does {role : Role} {line : Option Coord} {subject : Tree} {fs : List Tree}
    (hs : subject.isNode = true) (hne : fs ≠ []) (hf : ∀ t ∈ fs, t.isA .mutationFragment = true)
    (h : ∀ role, Does faults m base (.tree role subject) one (tree m code base role subject))
    (hp : ∀ t ∈ fs, Does faults m base (.tree .part t) one (tree m code base .part t))
    (hr : treatment role .mutation = .chain) :
    Does faults m base (.tree role (.node .mutation line (subject :: fs))) one
      (links m code base (subject :: fs)) := by
  intro i
  rw [links_node hs]
  refine (h .operand).bind fun out i' cs ho => (fragments_does hf hp).bind fun found i'' ds hd => ?_
  have hrow := Hoists.cons ho hd
  have hlen : found.left ≠ [] := by
    have := hd.length_row
    rw [id_eq, List.length_map] at this
    exact List.length_pos_iff.1 (this ▸ List.length_pos_iff.2 hne)
  refine (chain_does (m := m) hlen).mono fun out' es hout => ?_
  obtain ⟨taken, hb, he⟩ := hout
  simpa [hb] using @Hoists.chain _ _ _ line _ _ _ _ _ _ _ _ _ hr hrow he

section Nodes

variable {role : Role} {rule : Rule} {line : Option Coord} {ps : List Tree}

theorem parts_tree_does (h : treatment role rule = .parts)
    (hp : ∀ p ∈ ps, Does faults m base (.tree .part p) one (tree m code base .part p)) :
    Does faults m base (.tree role (.node rule line ps)) one
      (tree m code base role (.node rule line ps)) := by
  intro i
  rw [tree_parts h]
  refine (parts_does hp).bind fun out i' cs ho => ensures_pure ?_
  simpa using Hoists.keep (.parts h) ho

theorem out_does (h : treatment role rule = .partsOut ∨ treatment role rule = .chainOut)
    (hv : Does faults m base (.tree .value (.node rule line ps)) one
      (tree m code base .value (.node rule line ps))) :
    Does faults m base (.tree role (.node rule line ps)) one
      (tree m code base role (.node rule line ps)) := by
  intro i
  rw [tree_out h]
  exact hv.bind fun out i' cs ho => ensures_takeOut _ fun seq => .out h ho

theorem last_does {lastRole : Role} {last : Tree} (h : treatment role rule = .lastAs lastRole)
    (hp : ∀ p ∈ ps, Does faults m base (.tree .part p) one (tree m code base .part p))
    (hl : Does faults m base (.tree lastRole last) one (tree m code base lastRole last))
    (hn : last.isNode = true) :
    Does faults m base (.tree role (.node rule line (ps ++ [last]))) one
      (tree m code base role (.node rule line (ps ++ [last]))) := by
  intro i
  rw [tree_last h hn]
  refine (partsLast_does hp hl).bind fun out i' cs ho => ensures_pure ?_
  rw [← lastAs_append] at ho
  simpa using Hoists.keep (.last h) ho

theorem lastToken_does {lastRole : Role} {word : Token} (h : treatment role rule = .lastAs lastRole) :
    Does faults m base (.tree role (.node rule line [.token word])) one
      (tree m code base role (.node rule line [.token word])) := by
  intro i
  rw [tree_lastToken h]
  exact ensures_pure (.keep (.last h) (.cons .token .none))

theorem guarded_does {construct : String} {t : Token} (h : treatment role rule = .guarded construct)
    (ht : Tree.firstTokenOf? ps = some t) (hr : Refusals faults m (.node rule line ps))
    (hp : ∀ p ∈ ps, Does faults m base (.tree .part p) one (tree m code base .part p)) :
    Does faults m base (.tree role (.node rule line ps)) one
      (tree m code base role (.node rule line ps)) := by
  intro i
  rw [tree_guarded h ht]
  refine (parts_does hp).bind fun out i' cs ho => ?_
  unfold guardCondition
  split
  · rename_i hb
    rw [show out.before = [] from hb] at ho
    refine ensures_pure ?_
    simpa [show out.before = [] from hb] using Hoists.guarded h ho
  · rename_i call rest hb
    rw [show out.before = call :: rest from hb] at ho
    exact ensures_fail (hr rule line ps (by simp [Tree.walk]) role construct t h ht _ _ _ _ _ ho)

theorem statements_does {ts : List Tree}
    (h : ∀ t ∈ ts, t.isNode = true ∧ ∀ base,
      Does faults m base (.tree .statement t) one (tree m code base .statement t)) :
    ∀ i, Ensures faults (statements m code ts) i fun ts' cs =>
      Hoists m base (.statements ts) cs [] ts' := by
  induction ts with
  | nil => exact fun i => ensures_pure .noStatements
  | cons t ts ih =>
    intro i
    simp only [List.forall_mem_cons] at h
    cases t with
    | token t => simp [Tree.isNode] at h
    | node rule line ps =>
      unfold statements
      refine (h.1.2 _).bind fun out i' cs ho => (ih h.2 i').bind fun ts' i'' ds hd => ?_
      refine ensures_pure ?_
      simpa using Hoists.statements ho hd

end Nodes

theorem values_tree_does {v : Tree} (h : treatment role rule = .values)
    (hv : v.fits .plain = true)
    (hp : Does faults m base (.tree .value v) one (tree m code base .value v)) :
    Does faults m base (.tree role (.node rule line [v])) one
      (tree m code base role (.node rule line [v])) := by
  intro i
  obtain ⟨inner, line', ps', rfl, hi⟩ := Tree.fits_iff.1 hv
  have hcall : inner.isCall = false := by
    cases inner <;> simp_all [Rule.isValue, Rule.isCall]
  rw [tree_value h hcall]
  refine hp.bind fun out i' cs ho => ensures_pure ?_
  have hrow := Hoists.cons ho .none
  simp only [List.append_nil] at hrow ⊢
  exact .keep (@Keeps.values _ _ [.node inner line' ps'] h) hrow

/-- What was read is made plain in any role. -/
theorem tree_does {P : Token → Prop} {t : Tree} (h : Formed P m.grammar .read t) :
    Refusals faults m t →
    (∀ line u, .node .string line [.token u] ∈ t.walk → ∀ base, DoesCode faults m code base u) →
      ∀ base role, Does faults m base (.tree role t) one (tree m code base role t) := by
  induction h with
  | token t => exact fun _ _ base role i => ensures_pure .token
  | @node rule line ps content own parts ih =>
    intro hrefused hc base role
    have hp : ∀ p ∈ ps, ∀ base role, Does faults m base (.tree role p) one (tree m code base role p) :=
      fun p hp => ih p hp (hrefused.part p hp) fun line u hu => hc line u (Tree.walk_part hp hu)
    have hparts := fun p hm => hp p hm base .part
    -- where a call may stay, nothing depends on the role
    have hvalue : treatment .value rule = .parts ∨ treatment .value rule = .chain →
        ∀ role, treatment role rule = treatment .value rule →
          Does faults m base (.tree role (.node rule line ps)) one
            (tree m code base role (.node rule line ps)) := by
      rintro (ht | ht) role hr
      · exact parts_tree_does (hr.trans ht) hparts
      · rw [ht] at hr
        obtain rfl := rule_of_chain hr
        cases content with
        | @chain subject first rest value linked alone each =>
          intro i
          rw [tree_chain hr]
          obtain ⟨_, _, _, rfl, -⟩ := Tree.fits_iff.1 value
          refine links_does rfl (by simp) ?_ (hp _ (by simp) base) ?_ hr i
          · exact List.forall_mem_cons.2 ⟨linked, each⟩
          · exact fun t ht => hparts t (List.mem_cons_of_mem _ ht)
    cases ht : treatment role rule with
    | parts => exact parts_tree_does ht hparts
    | chain =>
      have hv : treatment .value rule = .chain := by
        rw [rule_of_chain ht]
        rfl
      exact hvalue (.inr hv) role (ht.trans hv.symm)
    | partsOut =>
      exact out_does (.inl ht) (hvalue (treatment_call (rule_of_out (.inl ht)).2) .value rfl)
    | chainOut =>
      exact out_does (.inr ht) (hvalue (treatment_call (rule_of_out (.inr ht)).2) .value rfl)
    | lastAs lastRole =>
      have hlast : ∀ (front : List Tree) {last : Tree}, ps = front ++ [last] →
          last.isNode = true → Does faults m base (.tree role (.node rule line ps)) one
            (tree m code base role (.node rule line ps)) := by
        rintro front last rfl hn
        exact last_does ht (fun p hm => hparts p (by simp [hm])) (hp _ (by simp) base _) hn
      obtain ⟨-, ⟨rfl, -⟩ | ⟨rfl | rfl, -⟩⟩ := rule_of_last ht
      · cases content with
        | @assignment _ target sign v _ value =>
          refine hlast [target, .token sign] rfl ?_
          cases v <;> simp_all [Tree.fits, Tree.isCall, Tree.rule?, Tree.isNode]
      · cases content with
        | returnAlone => exact lastToken_does ht
        | @returnValue _ word _ value =>
          obtain ⟨_, _, _, rfl, -⟩ := Tree.fits_iff.1 value
          exact hlast [.token word] rfl rfl
      · cases content with
        | throwAlone => exact lastToken_does ht
        | @throwValue _ word _ value =>
          obtain ⟨_, _, _, rfl, -⟩ := Tree.fits_iff.1 value
          exact hlast [.token word] rfl rfl
    | values =>
      obtain rfl := rule_of_values ht
      cases content with
      | expressionStatement value => exact values_tree_does ht value (hp _ (by simp) base .value)
    | string =>
      obtain rfl := rule_of_string ht
      cases content with
      | string kind sound =>
        intro i
        rw [tree_string ht]
        exact string_does (hc line _ (by simp [Tree.walk]) base) ht i
    | statements =>
      obtain ⟨-, rfl⟩ := rule_of_statements ht
      cases content with
      | block each =>
        intro i
        rw [tree_statements ht]
        have hnode : ∀ t ∈ ps, t.isNode = true := by
          intro t hm
          have := each t hm
          cases t <;> simp_all [Tree.isStatement, Tree.rule?, Tree.isNode]
        have hs : Ensures faults (statements m code ps) i fun ts' cs =>
            Hoists m base (.statements ps) cs [] ts' :=
          statements_does (fun t hm => ⟨hnode t hm, fun base => hp t hm base .statement⟩) i
        refine hs.bind fun ts' i' cs ho => ensures_pure ?_
        simpa [one, Out.all] using Hoists.block ht ho
    | guarded construct =>
      have hrule := rule_of_guarded ht
      have hfirst : ∃ t, Tree.firstTokenOf? ps = some t := by
        rcases hrule with rfl | rfl <;> cases content <;> exact ⟨_, rfl⟩
      obtain ⟨t, hfirst⟩ := hfirst
      exact guarded_does ht hfirst hrefused hparts

/-! ## Codes and stories -/

theorem length_lt_depthOf {t : Tree} : ∀ u ∈ t.yield, u.literal.length < depthOf t := by
  have h : ∀ (ns : List Nat) (n : Nat), n ≤ ns.foldl max n ∧ ∀ k ∈ ns, k ≤ ns.foldl max n := by
    intro ns
    induction ns with
    | nil => simp
    | cons k ns ih =>
      intro n
      obtain ⟨hn, hk⟩ := ih (max n k)
      simp only [List.foldl_cons, List.forall_mem_cons]
      exact ⟨by omega, by omega, hk⟩
  intro u hu
  exact Nat.lt_succ_of_le ((h _ 0).2 _ (List.mem_map_of_mem hu))

/-- A code is made plain like any value, and taken out unless it is a path. -/
theorem code_tree_does {depth : Nat} {v : Tree} (hv : v.fits .read = true)
    (ht : Does faults m base (.tree .value v) one (tree m (Hoist.code m depth) base .value v)) :
    Does faults m base (.code v) one (Hoist.code m (depth + 1) base v) := by
  intro i
  obtain ⟨rule, line, ps, rfl, -⟩ := Tree.fits_iff.1 hv
  by_cases hpath : rule = .path
  · subst hpath
    have hc : Hoist.code m (depth + 1) base (.node .path line ps) =
        tree m (Hoist.code m depth) base .value (.node .path line ps) := by
      rw [tree_parts rfl]
      rfl
    rw [hc]
    exact (ht i).mono fun out cs ho => .codePath rfl ho
  · have hno : Tree.isA .path (.node rule line ps) = false := by
      simp [Tree.isA, Tree.rule?, hpath]
    have hc : Hoist.code m (depth + 1) base (.node rule line ps) =
        tree m (Hoist.code m depth) base .value (.node rule line ps) >>= takeOut base := by
      cases rule <;> simp_all [Hoist.code]
    rw [hc]
    exact ht.bind fun out i' cs ho => ensures_takeOut _ fun seq => .codeOut hno ho

/-- Codes on one line get shorter, so they are never too deep. -/
theorem code_does (hg : m.grammar.KeepsLayout) (depth : Nat) : ∀ base t, t.Sound →
    t.kind = .string → t.literal.length ≤ depth →
      DoesCode Fault.OfStory m (Hoist.code m depth) base t := by
  induction depth with
  | zero =>
    intro base t hs hk hn source offset hm
    obtain ⟨pre, post, hraw, -⟩ := Pieces.mem_split hm
    have := congrArg List.length hraw
    simp only [String.length_toList, List.length_append, List.length_cons] at this
    omega
  | succ depth ih =>
    intro base t hs hk hn source offset hm
    obtain ⟨pre, post, hraw, -⟩ := Pieces.mem_split hm
    have hl : '\n' ∉ source := fun hnl => hs.string hk (by simp [hraw, hnl])
    have hlen : source.length ≤ depth := by
      have := congrArg List.length hraw
      simp only [String.length_toList, List.length_append, List.length_cons] at this
      omega
    cases hv : readCode m source ⟨t.line, t.column + 1 + offset⟩ with
    | error f => exact readCode_error hg hv
    | ok v =>
      obtain ⟨used, hu⟩ := readCode_ok hg hl hv
      refine code_tree_does hu.value (tree_does hu.formed (refusals_ofStory (fun _ h => h) v)
        (fun line w hw base => ?_) base .value)
      obtain ⟨hkind, hsound, hyield⟩ := hu.formed.string_of_mem_walk hw
      exact ih base w hsound hkind (Nat.le_trans (hu.short w hyield) hlen)

/-- If any fault is allowed, codes may have lines of their own. -/
theorem code_does_any (hg : m.grammar.KeepsLayout) (depth : Nat) :
    ∀ base t, DoesCode (fun _ => True) m (Hoist.code m depth) base t := by
  induction depth with
  | zero =>
    intro base t source offset _
    split
    · exact fun i => ensures_fail trivial
    · trivial
  | succ depth ih =>
    intro base t source offset _
    split
    · rename_i v hv
      obtain ⟨hf, hfits⟩ := Job.Formed.code hg (P := Token.Sound) (fun _ => id) hv
      exact code_tree_does hfits (tree_does hf (refusals_ofStory (fun _ _ => trivial) v)
        (fun _ u _ base => ih base u) base .value)
    · trivial

section Stories

variable {P : Token → Prop} {trees : List Tree}

/-- A story whose statements are formed is made plain, or has a fault that one of its conditions
or of its codes is allowed to have. -/
theorem story_ensures (h : ∀ t ∈ trees, t.isNode = true ∧ Formed P m.grammar .read t)
    (hr : ∀ t ∈ trees, Refusals faults m t)
    (hc : ∀ t ∈ trees, ∀ line u, .node .string line [.token u] ∈ t.walk → ∀ base,
      DoesCode faults m (Hoist.code m (depthOf (.of .start trees))) base u) :
    match story m (.of .start trees) with
    | .ok t => ∃ cs left i, t = .of .start left ∧
        (Issued.ofTree (.of .start trees)).Runs cs i ∧ Hoists m 0 (.statements trees) cs [] left
    | .error f => faults f := by
  have hs : Ensures faults (statements m (Hoist.code m (depthOf (.of .start trees))) trees)
      (.ofTree (.of .start trees)) fun left cs => Hoists m 0 (.statements trees) cs [] left :=
    statements_does
      (fun t ht => ⟨(h t ht).1, fun base => tree_does (h t ht).2 (hr t ht) (hc t ht) base _⟩) _
  unfold Ensures at hs
  simp only [story]
  split at hs
  · rename_i ts i hok
    obtain ⟨cs, hr, hh⟩ := hs
    rw [hok]
    exact ⟨cs, ts, i, rfl, hr, hh⟩
  · rename_i f herr
    rw [herr]
    exact hs

/-- A story whose statements are formed is made plain, or has a fault of its own. -/
theorem story_does (hg : m.grammar.KeepsLayout)
    (h : ∀ t ∈ trees, t.isNode = true ∧ Formed Token.Sound m.grammar .read t) :
    match story m (.of .start trees) with
    | .ok t => ∃ cs left i, t = .of .start left ∧
        (Issued.ofTree (.of .start trees)).Runs cs i ∧ Hoists m 0 (.statements trees) cs [] left
    | .error f => f.OfStory := by
  refine story_ensures h (fun t _ => refusals_ofStory (fun _ h => h) t) fun t ht line u hu base => ?_
  obtain ⟨hkind, hsound, hyield⟩ := (h t ht).2.string_of_mem_walk hu
  exact code_does hg _ base u hsound hkind (Nat.le_of_lt (length_lt_depthOf u (Tree.mem_yieldAll ht hyield)))

/-- The same for a story that was read from any tokens, if it is made plain. -/
theorem story_does_any (hg : m.grammar.KeepsLayout)
    (h : ∀ t ∈ trees, t.isNode = true ∧ Formed P m.grammar .read t) {t : Tree}
    (hok : story m (.of .start trees) = .ok t) :
    ∃ cs left i, t = .of .start left ∧
      (Issued.ofTree (.of .start trees)).Runs cs i ∧ Hoists m 0 (.statements trees) cs [] left := by
  have hs := story_ensures h (fun t _ => refusals_ofStory (fun _ _ => trivial) t)
    fun _ _ _ u _ base => code_does_any hg _ base u
  rwa [hok] at hs

end Stories

/-- Making a story plain takes apart the statements that were read, whatever tokens they were
read from. -/
theorem story_hoists (hg : m.grammar.KeepsLayout) {tokens : List Token} {t t' : Tree}
    (ht : Tree.ofTokens m.grammar tokens = .ok t) (h : story m t = .ok t') :
    ∃ trees cs left i, t = .of .start trees ∧ t' = .of .start left ∧
      Derives m.grammar .statements (tokens.takeWhile (·.kind ≠ .eof)) trees ∧
      (Job.statements trees).Formed (fun _ => True) m.grammar ∧ (Issued.ofTree t).Runs cs i ∧
      Hoists m 0 (.statements trees) cs [] left := by
  obtain ⟨trees, rfl, hd⟩ := Tree.ofTokens_derives hg ht
  have hread := hd.formed (P := fun _ => True) fun _ _ => trivial
  obtain ⟨cs, left, i, rfl, hruns, hh⟩ := story_does_any hg
    (fun t ht => ⟨Tree.isNode_of_isStatement (hread t ht).1, (hread t ht).2⟩) h
  exact ⟨trees, cs, left, i, rfl, rfl, hd, fun t ht => (hread t ht).symm, hruns, hh⟩

end StoryLang.Hoist
