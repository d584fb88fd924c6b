/-
Which services a statement notes.

A statement notes what it calls or listens to where that is not known, and what
the statements of its block and its branches note. What is known there is what
is known at the statement and what is declared in front, so that it can be told
from the statements alone which services are noted (`Script.Uses`).
-/
import StoryLang.Proofs.Check.Noted.Value

namespace StoryLang

namespace Check

open Script (Uses calledIn? calledBy declaredBy boundBy wholeName? rootOf? inBlock branchesOf uses_cons
  not_uses_nil isOneOf continuations)

variable {α β : Type} {g : Grammar} {e : Env} {a b c : Scopes} {m k l : NameMap Unit}
  {rule : Rule} {line : Option Coord} {t u : Tree} {ps ts : List Tree} {n : String} {globals : Bool}
  {base known : String → Prop}

/-! ## Where statements stand -/

/-- The name is one of the root, which is known everywhere. -/
def Rooted (a : Scopes) (n : String) : Prop := (a.root.get? n).isSome = true

/-- The scopes are inside of the story, and of the function that is checked. -/
structure Stood (e : Env) (a : Scopes) : Prop where
  opened : a.inner ≠ []
  floor : Place.Opened ⟨e, a⟩

theorem Rooted.knows (h : Rooted a n) : e.Knows a n := Env.knows_iff.2 (.inr h)

theorem rooted_over (h : b.Over a) : Rooted b = Rooted a := by
  have hroot : b.dropTop.root = a.dropTop.root := congrArg Scopes.root h.below
  exact funext fun n => congrArg (fun root : Scope => (root.get? n).isSome = true) hroot

theorem Stood.push (h : Stood e a) : Stood e a.push :=
  ⟨by simp [Scopes.push], fun body hb => Nat.lt_succ_of_lt (h.floor body hb)⟩

theorem Stood.over (h : Stood e a) (hb : b.Over a) : Stood e b := by
  refine ⟨hb.opened, fun body hbody => ?_⟩
  have hfloor : body.floor < a.depth := h.floor body hbody
  have htail : b.inner.tail = a.inner.tail := congrArg Scopes.inner hb.below
  have hlength : b.inner.length = a.inner.length := by
    have hb := List.length_pos_iff.2 hb.opened
    have ha := List.length_pos_iff.2 h.opened
    have := congrArg List.length htail
    simp only [List.length_tail] at this
    omega
  change body.floor < b.depth
  rw [Scopes.depth] at hfloor ⊢
  omega

/-- The body of a function stands in the scope that is opened for it. -/
theorem stood_function {name : String} {returns : Ty} :
    Stood { e with body := some ⟨name, returns, a.push.depth - 1⟩ } a.push := by
  refine ⟨by simp [Scopes.push], fun body hb => ?_⟩
  obtain rfl := Option.some.inj hb
  exact Nat.sub_lt (Nat.succ_pos _) Nat.one_pos

/-! ## Scopes and names -/

theorem notes_push : Notes a m push fun _ b k => b = a.push ∧ k = m := by
  rintro s _ _ rfl rfl hx
  obtain ⟨-, rfl⟩ := Prod.mk.inj (Except.ok.inj hx)
  exact ⟨.refl rfl, fun _ => ⟨rfl, rfl⟩⟩

theorem notes_pop : Notes a m pop fun _ b k => b = a.dropTop ∧ k = m := by
  rintro s _ _ rfl rfl hx
  obtain ⟨-, rfl⟩ := Prod.mk.inj (Except.ok.inj hx)
  exact ⟨.refl rfl, fun _ => ⟨rfl, rfl⟩⟩

/-- The scopes are those from before with just some names more, all in the top scope. -/
def Declares (e : Env) (a : Scopes) (names : List String) (b : Scopes) : Prop :=
  Stood e a → b.Over a ∧ ∀ n, e.Knows b n ↔ e.Knows a n ∨ n ∈ names

/-- With no error, all the names are declared, and those only. -/
theorem notes_declareAll {names : List Token} {tys : List Ty} : Notes a m (declareAll line names tys)
    fun _ b k => k = m ∧ Declares e a (names.map (·.literal)) b := by
  rintro s v s' rfl rfl hx
  obtain ⟨hsince, hgains⟩ := leads_declareAll s v s' rfl hx
  refine ⟨hsince, fun hs => ⟨keeps_declareAll (T := unchanged) s v s' hx, fun ha => ?_⟩⟩
  have hover := (hgains hs).above ha.opened
  have hwithin : s.scopes.Within s'.scopes := keeps_declareAll (T := growing) s v s' hx
  refine ⟨hover, fun n => ⟨(hgains hs).known e n, ?_⟩⟩
  rintro (hn | hn)
  · exact hn.mono hwithin
  · obtain ⟨name, hname, rfl⟩ := List.mem_map.1 hn
    exact (ha.over hover).floor.knows (declareAll_top hx name hname)

theorem notes_declare {name : Token} {ty : Ty} : Notes a m (declare name.literal ty line name.position)
    fun _ b k => k = m ∧ Declares e a [name.literal] b := by
  have hall : declareAll line [name] [ty] = declare name.literal ty line name.position := bind_pure_unit
  rw [← hall]
  exact notes_declareAll

/-! ## What statements come to -/

theorem uses_congr {base' known' : String → Prop} (hb : ∀ n, base n ↔ base' n)
    (hk : ∀ n, known n ↔ known' n) : Uses globals base known ts n ↔ Uses globals base' known' ts n := by
  rw [funext fun n => propext (hb n), funext fun n => propext (hk n)]

/-- What one statement or branch uses. -/
theorem uses_one : Uses globals base known [t] n ↔ calledBy t = some n ∧ ¬ known n ∨
    Uses globals base (inBlock globals base known t) (Script.blockOf t.parts) n ∨
    Uses globals base known (branchesOf t) n := by
  rw [uses_cons, or_iff_left not_uses_nil]

theorem uses_split : Uses globals base known (t :: ts) n ↔ Uses globals base known [t] n ∨
    Uses globals base (fun n => known n ∨ n ∈ declaredBy t) ts n := by
  rw [uses_cons, uses_one]
  tauto

theorem noted_nil : Noted m m (Uses globals base known []) := noted_none fun _ => not_uses_nil

/-- A statement notes what it calls, and what its block and its branches note. -/
theorem noted_one {j : NameMap Unit} (h : Noted m j fun n => calledBy t = some n ∧ ¬ known n)
    (hblock : Noted j k (Uses globals base (inBlock globals base known t) (Script.blockOf t.parts)))
    (hbranches : Noted k l (Uses globals base known (branchesOf t))) :
    Noted m l (Uses globals base known [t]) :=
  (h.trans hblock fun _ => Iff.rfl).trans hbranches fun n => by rw [uses_one, or_assoc]

theorem noted_uncalled (h : calledBy t = none) : Noted m m fun n => calledBy t = some n ∧ ¬ known n :=
  noted_none fun n hn => by simp [h] at hn

/-- Statements that are checked one after the other. -/
def Follows (e : Env) (a : Scopes) (m : NameMap Unit) (ts : List Tree) (b : Scopes) (k : NameMap Unit) :
    Prop :=
  Stood e a → b.Over a ∧ Noted m k (Uses e.features.globals (Rooted a) (e.Knows a) ts)

/-- A statement, which declares names for those behind it. -/
def Passed (e : Env) (a : Scopes) (m : NameMap Unit) (t : Tree) (b : Scopes) (k : NameMap Unit) : Prop :=
  Declares e a (declaredBy t) b ∧
    (Stood e a → Noted m k (Uses e.features.globals (Rooted a) (e.Knows a) [t]))

/-- Statements in a block whose scope is closed again, with these names known there. -/
def Closed (e : Env) (a : Scopes) (m : NameMap Unit) (known : String → Prop) (ts : List Tree) (b : Scopes)
    (k : NameMap Unit) : Prop :=
  Stood e a → b = a ∧ Noted m k (Uses e.features.globals (Rooted a) known ts)

theorem follows_nil : Follows e a m [] a m :=
  fun ha => ⟨.refl ha.opened, noted_nil⟩

theorem Passed.cons (h : Passed e a m t b k) (h' : Follows e b k ts c l) : Follows e a m (t :: ts) c l := by
  intro ha
  obtain ⟨hover, hknown⟩ := h.1 ha
  obtain ⟨hover', hnoted⟩ := h' (ha.over hover)
  refine ⟨hover'.trans hover, (h.2 ha).trans hnoted fun n => ?_⟩
  rw [uses_split, rooted_over hover]
  exact or_congr_right (uses_congr (fun _ => Iff.rfl) fun n => (hknown n).symm)

theorem closed_nil : Closed e a m known [] a m := fun _ => ⟨rfl, noted_nil⟩

/-- A branch that is followed by others, each in scopes of its own. -/
theorem Closed.cons (h : Closed e a m (e.Knows a) [t] b k) (hd : declaredBy t = [])
    (h' : Closed e b k (e.Knows b) ts c l) : Closed e a m (e.Knows a) (t :: ts) c l := by
  intro ha
  obtain ⟨rfl, hnoted⟩ := h ha
  obtain ⟨rfl, hnoted'⟩ := h' ha
  refine ⟨rfl, hnoted.trans hnoted' fun n => ?_⟩
  rw [uses_split, hd]
  exact or_congr_right (uses_congr (fun _ => Iff.rfl) fun n => or_iff_left List.not_mem_nil)

/-! ## Blocks -/

/-- What checking the statements of a tree notes, where they are those of a block of their own. -/
def NotesBlock (t : Tree) : Prop :=
  ∀ e a m, Notes a m (statements e .open t.parts) fun _ b k => Follows e a m t.parts b k

/-- The statements of the first block of a row. -/
theorem notes_bodyOf (h : ∀ p ∈ ps, p.isA .block = true → NotesBlock p) :
    Notes a m (bodyOf e ps) fun _ b k => Follows e a m (Script.blockOf ps) b k := by
  rw [bodyOf_find, Script.blockOf]
  cases hb : ps.find? (·.isA .block) with
  | none => exact notes_pure follows_nil
  | some b =>
    have hblock := List.find?_some hb
    obtain ⟨l, ts, rfl⟩ := Tree.isA_iff.1 hblock
    exact (h _ (List.mem_of_find?_eq_some hb) hblock e a m).bind fun _ _ _ => notes_pure id

/-- Statements in a scope of their own. -/
theorem notes_inOwnScope (h : NotesBlock t) :
    Notes a m (inOwnScope (statements e .open t.parts)) fun _ b k => Closed e a m (e.Knows a) t.parts b k := by
  unfold inOwnScope
  refine notes_push.bind fun _ b k => (h e b k).bind fun ts c l => notes_pop.bind fun _ d l' => notes_pure ?_
  rintro ⟨rfl, rfl⟩ hbody ⟨rfl, rfl⟩ ha
  obtain ⟨hover, hnoted⟩ := hbody ha.push
  refine ⟨hover.ofPush, fun n => (hnoted n).trans (or_congr_right ?_)⟩
  exact uses_congr (fun _ => Iff.rfl) fun n => Env.knows_push

theorem notes_blockOf (h : ∀ p ∈ ps, p.isA .block = true → NotesBlock p) :
    Notes a m (blockOf e ps) fun _ b k => Closed e a m (e.Knows a) (Script.blockOf ps) b k := by
  rw [blockOf_find, Script.blockOf]
  cases hb : ps.find? (·.isA .block) with
  | none => exact notes_pure closed_nil
  | some b =>
    have hblock := List.find?_some hb
    obtain ⟨l, ts, rfl⟩ := Tree.isA_iff.1 hblock
    exact (notes_inOwnScope (h _ (List.mem_of_find?_eq_some hb) hblock)).bind fun _ _ _ => notes_pure id

/-- A block for which names are declared, whose scope is closed behind it. -/
theorem notes_closed {f : Option Tree → β} {names : List Token} {tys : List Ty}
    (h : ∀ p ∈ ps, p.isA .block = true → NotesBlock p) :
    Notes a m (declareAll line names tys >>= fun _ => bodyOf e ps >>= fun body => pop >>= fun _ => pure (f body))
      fun _ b k => Stood e a → b = a.dropTop ∧ Noted m k
        (Uses e.features.globals (Rooted a) (fun n => e.Knows a n ∨ n ∈ names.map (·.literal)) (Script.blockOf ps)) := by
  refine (notes_declareAll (e := e)).bind fun _ b k => (notes_bodyOf h).bind fun body c l => ?_
  refine notes_pop.bind fun _ d l' => notes_pure ?_
  rintro ⟨rfl, rfl⟩ hbody ⟨rfl, hdeclares⟩ ha
  obtain ⟨hover, hknown⟩ := hdeclares ha
  obtain ⟨hover', hnoted⟩ := hbody (ha.over hover)
  refine ⟨(hover'.trans hover).below, fun n => (hnoted n).trans (or_congr_right ?_)⟩
  exact uses_congr (fun n => by rw [rooted_over hover]) hknown

theorem notes_opened {f : Option Tree → β} {names : List Token} {tys : List Ty}
    (h : ∀ p ∈ ps, p.isA .block = true → NotesBlock p) :
    Notes a m (push >>= fun _ => declareAll line names tys >>= fun _ => bodyOf e ps >>= fun body =>
        pop >>= fun _ => pure (f body))
      fun _ b k => Closed e a m (fun n => e.Knows a n ∨ n ∈ names.map (·.literal)) (Script.blockOf ps) b k := by
  refine notes_push.bind fun _ b k => (notes_closed h).mono ?_
  rintro _ c l hbody ⟨rfl, rfl⟩ ha
  obtain ⟨rfl, hnoted⟩ := hbody ha.push
  refine ⟨Scopes.dropTop_push a, fun n => (hnoted n).trans (or_congr_right ?_)⟩
  exact uses_congr (fun _ => Iff.rfl) fun n => or_congr_left Env.knows_push

/-! ## Branches -/

/-- What is known in a block that no function is around. -/
theorem inBlock_iff (ht : t.isA .functionBlock = false) (hb : ∀ n, base n → known n) :
    inBlock globals base known t n ↔ known n ∨ n ∈ boundBy t ++ declaredBy t := by
  rw [inBlock, ht, List.mem_append]
  have := hb n
  tauto

/-- A branch or a loop: it calls nothing, and its names are for its block. -/
theorem Closed.owner (h : Closed e a m known (Script.blockOf ps) b k)
    (hr : rule.isBranch = true ∨ rule = .whileBlock ∨ rule = .foreachBlock)
    (hk : ∀ n, known n ↔ e.Knows a n ∨ n ∈ boundBy (.node rule line ps)) :
    Closed e a m (e.Knows a) [.node rule line ps] b k := by
  have told : calledBy (.node rule line ps) = none ∧ declaredBy (.node rule line ps) = [] ∧
      Tree.isA .functionBlock (.node rule line ps) = false ∧ continuations rule = [] := by
    cases rule <;> first | exact ⟨rfl, rfl, rfl, rfl⟩ | exact absurd hr (by decide)
  obtain ⟨hc, hd, hplain, hbranches⟩ := told
  intro ha
  obtain ⟨rfl, hnoted⟩ := h ha
  refine ⟨rfl, noted_one (noted_uncalled hc) (fun n => (hnoted n).trans (or_congr_right ?_))
    (Script.branchesOf_eq_nil hbranches ▸ noted_nil)⟩
  refine uses_congr (fun _ => Iff.rfl) fun n => (hk n).trans ?_
  rw [inBlock_iff hplain fun n hn => hn.knows, hd, List.append_nil]

theorem blockOf_behind (front : List Tree) {body : Tree} (h : ∀ p ∈ front, p.isA .block = false)
    (hb : body.isA .block = true) : Script.blockOf (front ++ body :: ps) = body.parts := by
  have hfront : front.find? (·.isA .block) = none := by simpa using h
  rw [Script.blockOf, List.find?_append, hfront, Option.none_or, List.find?_cons_of_pos hb]
  rfl

theorem branch_condition (h : t.fits .plain = true) : branch e (t :: ps) =
    condition e t >>= fun first => branch e ps >>= fun rest => pure (first :: rest) := by
  obtain ⟨rule, line, inner, rfl, hr⟩ := Tree.fits_iff.1 h
  rcases hr with hr | ⟨hs, -⟩
  · cases rule <;> first | rfl | cases hr
  · cases hs

theorem branches_condition (h : t.fits .plain = true) : branches e (t :: ps) =
    condition e t >>= fun first => branches e ps >>= fun rest => pure (first :: rest) := by
  obtain ⟨rule, line, inner, rfl, hr⟩ := Tree.fits_iff.1 h
  rcases hr with hr | ⟨hs, -⟩
  · cases rule <;> first | rfl | cases hr
  · cases hs

theorem notes_branch (hf : Formed Token.Sound g .plain (.node .elifBlock line ps))
    (h : ∀ p ∈ ps, p.isA .block = true → NotesBlock p) :
    Notes a m (branch e ps) fun _ b k => Closed e a m (e.Knows a) [.node .elifBlock line ps] b k := by
  obtain _ | ⟨content, -, parts⟩ := hf
  cases content with
  | @elifBlock _ elseWord ifWord head body suits block =>
    have hhead : Calm g head := calm_fits (parts head (by simp)) suits
    have hbody : NotesBlock body := h body (by simp) block
    have hblock : Script.blockOf [.token elseWord, .token ifWord, head, body] = body.parts :=
      blockOf_behind [.token elseWord, .token ifWord, head]
        (by simpa [Tree.isA, Tree.rule?] using Tree.fits_isA (r := .block) suits ⟨rfl, rfl⟩) block
    obtain ⟨l, inner, rfl⟩ := Tree.isA_iff.1 block
    unfold branch
    unfold branch
    rw [branch_condition suits]
    unfold branch
    unfold branch
    simp only [bind_assoc, pure_bind]
    refine (silent_condition hhead e).notes fun first => ?_
    refine (notes_inOwnScope hbody).bind fun rest b k => notes_pure fun hbody => ?_
    refine Closed.owner (hblock ▸ hbody) (.inl rfl) fun n => ?_
    exact (or_iff_left List.not_mem_nil).symm

/-- The blocks of a tree note what their statements use. -/
def NotesBlocks (t : Tree) : Prop := ∀ p ∈ t.parts, p.isA .block = true → NotesBlock p

/-- A branch that declares nothing for its block. -/
theorem notes_bare (hr : rule = .elseBlock ∨ rule = .finallyBlock) (h : NotesBlocks (.node rule line ps)) :
    Notes a m (blockOf e ps) fun _ b k => Closed e a m (e.Knows a) [.node rule line ps] b k := by
  refine (notes_blockOf h).mono fun _ b k hbody => ?_
  rcases hr with rfl | rfl <;>
    exact hbody.owner (.inl rfl) fun n => (or_iff_left List.not_mem_nil).symm

/-- The branches of an `if`. -/
theorem notes_branches (ht : ∀ t ∈ ts, t.isA .elifBlock = true ∨ t.isA .elseBlock = true)
    (hf : ∀ t ∈ ts, Formed Token.Sound g .plain t) (h : ∀ t ∈ ts, NotesBlocks t) :
    Notes a m (branches e ts) fun _ b k => Closed e a m (e.Knows a) ts b k := by
  induction ts generalizing a m with
  | nil => exact notes_pure closed_nil
  | cons t ts ih =>
    rw [List.forall_mem_cons] at ht hf h
    obtain ⟨ht, hts⟩ := ht
    rcases ht with ht | ht
    all_goals
      obtain ⟨line, ps, rfl⟩ := Tree.isA_iff.1 ht
      unfold branches
    · refine (notes_branch hf.1 h.1).bind fun made b k => (ih hts hf.2 h.2).bind fun rest c l => notes_pure ?_
      exact fun hrest hbranch => hbranch.cons rfl hrest
    · refine (notes_bare (.inl rfl) h.1).bind fun made b k => (ih hts hf.2 h.2).bind fun rest c l => notes_pure ?_
      exact fun hrest hbranch => hbranch.cons rfl hrest

theorem notes_catch {f : Option Tree → β} (h : NotesBlocks (.node .catchBlock line ps)) :
    Notes a m (push >>= fun _ => declareOutput (.node .catchBlock line ps) .anyObject >>= fun _ =>
        bodyOf e ps >>= fun body => pop >>= fun _ => pure (f body))
      fun _ b k => Closed e a m (e.Knows a) [.node .catchBlock line ps] b k := by
  refine (notes_opened h).mono fun _ b k hbody => hbody.owner (.inl rfl) fun n => ?_
  rw [← outputNames_eq]
  rfl

/-- The handlers of a `try`. -/
theorem notes_handlers (ht : ∀ t ∈ ts, t.isA .catchBlock = true ∨ t.isA .finallyBlock = true)
    (h : ∀ t ∈ ts, NotesBlocks t) : Notes a m (handlers e ts) fun _ b k => Closed e a m (e.Knows a) ts b k := by
  induction ts generalizing a m with
  | nil => exact notes_pure closed_nil
  | cons t ts ih =>
    rw [List.forall_mem_cons] at ht h
    obtain ⟨ht, hts⟩ := ht
    rcases ht with ht | ht
    · obtain ⟨line, ps, rfl⟩ := Tree.isA_iff.1 ht
      have hc : handlers e (.node .catchBlock line ps :: ts) =
          (push >>= fun _ => declareOutput (.node .catchBlock line ps) .anyObject >>= fun _ =>
            bodyOf e ps >>= fun body => pop >>= fun _ =>
              pure (Tree.node .catchBlock line (Tree.putFirst .block body ps))) >>= fun first =>
            handlers e ts >>= fun rest => pure (first :: rest) := by
        conv => lhs; unfold handlers
        simp only [bind_assoc, pure_bind]
      rw [hc]
      refine (notes_catch h.1).bind fun made b k => (ih hts h.2).bind fun rest c l => notes_pure ?_
      exact fun hrest hbranch => hbranch.cons rfl hrest
    · obtain ⟨line, ps, rfl⟩ := Tree.isA_iff.1 ht
      unfold handlers
      refine (notes_bare (.inr rfl) h.1).bind fun made b k => (ih hts h.2).bind fun rest c l => notes_pure ?_
      exact fun hrest hbranch => hbranch.cons rfl hrest

/-! ## Statements without blocks -/

/-- A statement notes what it uses, and declares its names. -/
def NotesStatement (t : Tree) : Prop := ∀ e a m, Notes a m (statement e t) fun _ b k => Passed e a m t b k

theorem Declares.refl : Declares e a [] a :=
  fun ha => ⟨.refl ha.opened, fun _ => (or_iff_left List.not_mem_nil).symm⟩

/-- A statement that neither owns a block nor has branches. -/
theorem passed_alone (hb : Script.blockOf t.parts = []) (hbr : branchesOf t = [])
    (hd : Declares e a (declaredBy t) b) (hn : Noted m k fun n => calledBy t = some n ∧ ¬ e.Knows a n) :
    Passed e a m t b k :=
  ⟨hd, fun _ => noted_one hn (hb ▸ noted_nil) (hbr ▸ noted_nil)⟩

/-- One that changes nothing. -/
theorem Silent.passed {x : Check α} (hs : Silent x) (hb : Script.blockOf t.parts = []) (hbr : branchesOf t = [])
    (hd : declaredBy t = []) (hc : calledBy t = none) : Notes a m x fun _ b k => Passed e a m t b k := by
  refine hs.alone.mono ?_
  rintro _ _ _ ⟨rfl, rfl⟩
  exact passed_alone hb hbr (hd ▸ .refl) (noted_uncalled hc)

theorem Closed.passed (h : Closed e a m (e.Knows a) [t] b k) (hd : declaredBy t = []) : Passed e a m t b k := by
  refine ⟨fun ha => ?_, fun ha => (h ha).2⟩
  obtain ⟨rfl, -⟩ := h ha
  exact hd ▸ Declares.refl ha

theorem notes_assignment (hf : Formed Token.Sound g .plain (.node .assignment line ps)) :
    Notes a m (assignment e (.node .assignment line ps) ps) fun _ b k =>
      Passed e a m (.node .assignment line ps) b k := by
  obtain _ | ⟨content, own, parts⟩ := hf
  have hblock : Script.blockOf ps = [] := Script.blockOf_silent (Script.silent_content content rfl rfl)
  cases content with
  | @assignment _ target sign v isPath given =>
    have hv : v.isNode = true := by
      cases v with
      | token u => simp [Tree.fits, Tree.isCall, Tree.rule?] at given
      | node => rfl
    have hvalue := notes_assigned (e := e) (a := a) (m := m) (parts v (by simp)) given
    have hpath : Calm g target := calm_isA (parts target (by simp)) isPath rfl
    obtain ⟨tl, tps, rfl⟩ := Tree.isA_iff.1 isPath
    obtain _ | ⟨target, -, -⟩ := parts (.node .path tl tps) (by simp)
    cases target with
    | @path _ root fs kind each =>
      have hroot : Tree.firstToken? (.node .path tl (.token root :: fs)) = some root := rfl
      rw [assignment_parts rfl hroot hv]
      refine hvalue.bind fun source b k => ?_
      have made : ∀ {c : Scopes}, Declares e a (wholeName? (.node .path tl (.token root :: fs))).toList c →
          Noted m k (fun n => calledIn? v = some n ∧ ¬ e.Knows a n) →
          Passed e a m (.node .assignment line [.node .path tl (.token root :: fs), .token sign, v]) c k :=
        fun hd hn => passed_alone hblock (Script.branchesOf_eq_nil rfl) hd hn
      cases fs with
      | nil =>
        refine notes_lookup ?_
        cases hfound : e.found b root.literal with
        | some binding =>
          refine (Reports.silent (r := none) reports_assignable).notes fun _ => notes_pure ?_
          rintro ⟨rfl, hn⟩
          refine made (fun ha => ⟨.refl ha.opened, fun n => ⟨.inl, ?_⟩⟩) hn
          rintro (hk | hk)
          · exact hk
          · obtain rfl := List.mem_singleton.1 hk
            simp [Env.Knows, hfound]
        | none =>
          refine (notes_declare (e := e)).bind fun _ c l => notes_pure ?_
          rintro ⟨rfl, hd⟩ ⟨rfl, hn⟩
          exact made hd hn
      | cons f fs =>
        rw [if_pos (by simp [Tree.parts, each f List.mem_cons_self])]
        refine (silent_value hpath e).notes fun out => ?_
        refine (Reports.silent (r := none) reports_assignable).notes fun _ => notes_pure ?_
        rintro ⟨rfl, hn⟩
        exact made .refl hn

theorem notes_importStatement (hf : Formed Token.Sound g .plain (.node .importStatement line ps)) :
    NotesStatement (.node .importStatement line ps) := by
  intro e a m
  have hblock : Script.blockOf ps = [] := noBlock_of_formed hf (by simp)
  have hname : Script.nameIn? ps = (nameOf? ps).map (·.literal) := rfl
  have made : ∀ {c : Scopes}, Declares e a (Script.nameIn? ps).toList c →
      Passed e a m (.node .importStatement line ps) c m :=
    fun hd => passed_alone hblock (Script.branchesOf_eq_nil rfl) hd (noted_uncalled rfl)
  unfold statement
  cases hn : nameOf? ps with
  | none => exact notes_pure (made (by rw [hname, hn]; exact .refl))
  | some name =>
    refine (notes_declare (e := e)).bind fun _ b k => notes_pure ?_
    rintro ⟨rfl, hd⟩
    exact made (by rw [hname, hn]; exact hd)

/-- What a `return` or a `throw` gives calls nothing. -/
theorem calm_ended (hr : rule = .returnStatement ∨ rule = .throwStatement)
    (hf : Formed Token.Sound g .plain (.node rule line ps)) : ∀ t ∈ (ps.filter Tree.isNode)[0]?, Calm g t := by
  obtain _ | ⟨content, -, parts⟩ := hf
  have value {word : Token} {v : Tree} (hps : ps = [.token word, v]) (fits : v.fits .plain = true) :
      ∀ t ∈ (ps.filter Tree.isNode)[0]?, Calm g t := by
    subst hps
    intro t ht
    have hfirst : ([.token word, v].filter Tree.isNode)[0]? = some v := by
      rw [List.filter_cons_of_neg (by simp [Tree.isNode]), List.filter_cons_of_pos (isNode_of_fits fits)]
      rfl
    obtain rfl := Option.some.inj (hfirst.symm.trans ht)
    exact calm_fits (parts v (by simp)) fits
  rcases hr with rfl | rfl
  · cases content with
    | returnAlone => exact fun t ht => by cases ht
    | returnValue fits => exact value rfl fits
  · cases content with
    | throwAlone => exact fun t ht => by cases ht
    | throwValue fits => exact value rfl fits

/-! ## Statements with blocks -/

theorem passed_call (hc : rule = .serviceCall ∨ rule = .mutation)
    (hn : Noted m k fun n => calledBy (.node rule line ps) = some n ∧ ¬ e.Knows a n)
    (hd : Declares e a (Script.outputNames ps) b) (hbody : Closed e b k (e.Knows b) (Script.blockOf ps) c l) :
    Passed e a m (.node rule line ps) c l := by
  have hdeclared : declaredBy (.node rule line ps) = Script.outputNames ps := by rcases hc with rfl | rfl <;> rfl
  have hbound : boundBy (.node rule line ps) = [] := by rcases hc with rfl | rfl <;> rfl
  have hplain : Tree.isA .functionBlock (.node rule line ps) = false := by rcases hc with rfl | rfl <;> rfl
  have hbranches : branchesOf (.node rule line ps) = [] :=
    Script.branchesOf_eq_nil (by rcases hc with rfl | rfl <;> rfl)
  have hopened (ha : Stood e a) : b.Over a ∧ c = b ∧ Noted k l (Uses e.features.globals (Rooted b) (e.Knows b)
      (Script.blockOf ps)) := ⟨(hd ha).1, hbody (ha.over (hd ha).1)⟩
  refine ⟨fun ha => ?_, fun ha => ?_⟩
  · obtain ⟨-, rfl, -⟩ := hopened ha
    exact hdeclared ▸ hd ha
  · obtain ⟨hover, rfl, hnoted⟩ := hopened ha
    refine noted_one hn (fun n => (hnoted n).trans (or_congr_right ?_)) (hbranches ▸ noted_nil)
    refine uses_congr (fun n => by rw [rooted_over hover]) fun n => ?_
    rw [(hd ha).2, inBlock_iff hplain fun n hn => hn.knows, hbound, hdeclared, List.nil_append]

/-- A call in a list of statements declares its outputs, and its block is checked behind that. -/
theorem notes_call (hc : rule = .serviceCall ∨ rule = .mutation)
    (hf : Formed Token.Sound g .plain (.node rule line ps)) (h : NotesBlocks (.node rule line ps)) :
    NotesStatement (.node rule line ps) := by
  intro e a m
  rw [statement_call hc]
  refine ((notes_called hc hf).gives (gives_called hc)).bind fun out b k => ?_
  refine (notes_declareAll (e := e)).bind fun _ c l => (notes_blockOf h).bind fun body d l' => ?_
  obtain ⟨t', ty⟩ := out
  cases t' with
  | token u =>
    refine notes_pure ?_
    rintro - - ⟨-, _, _, _, ht, -⟩
    cases ht
  | node rule' line' ps' =>
    refine notes_pure ?_
    rintro hbody ⟨rfl, hd⟩ ⟨⟨rfl, hn⟩, _, _, _, ht, -, halike⟩
    obtain ⟨-, -, rfl⟩ := Tree.node.inj ht
    refine passed_call hc hn ?_ hbody
    rw [Script.outputNames, ← halike]
    rwa [← outputNames_eq] at hd

/-- A statement that owns a block and has branches. -/
theorem Closed.forks (h : Closed e a m (e.Knows a) (Script.blockOf t.parts) b k)
    (h' : Closed e b k (e.Knows b) (branchesOf t) c l) (hr : t.isA .ifBlock = true ∨ t.isA .tryBlock = true) :
    Closed e a m (e.Knows a) [t] c l := by
  intro ha
  obtain ⟨rfl, hnoted⟩ := h ha
  obtain ⟨rfl, hnoted'⟩ := h' ha
  have told : calledBy t = none ∧ t.isA .functionBlock = false ∧ boundBy t ++ declaredBy t = [] := by
    rcases hr with hr | hr <;> obtain ⟨line, ps, rfl⟩ := Tree.isA_iff.1 hr <;> exact ⟨rfl, rfl, rfl⟩
  obtain ⟨hc, hplain, hnone⟩ := told
  refine ⟨rfl, noted_one (noted_uncalled hc) (fun n => (hnoted n).trans (or_congr_right ?_)) hnoted'⟩
  refine uses_congr (fun _ => Iff.rfl) fun n => ?_
  rw [inBlock_iff hplain fun n hn => hn.knows, hnone, or_iff_left List.not_mem_nil]

theorem notes_ifBlock (hf : Formed Token.Sound g .plain (.node .ifBlock line ps))
    (h : NotesBlocks (.node .ifBlock line ps)) (hps : ∀ p ∈ ps, NotesBlocks p) :
    NotesStatement (.node .ifBlock line ps) := by
  intro e a m
  obtain _ | ⟨content, -, parts⟩ := hf
  cases content with
  | @ifBlock _ word head body bs suits block each =>
    simp only [List.forall_mem_cons] at parts hps
    have hhead : Calm g head := calm_fits parts.2.1 suits
    have hbody : NotesBlock body := h body (by simp [Tree.parts]) block
    have hblock : Script.blockOf (.token word :: head :: body :: bs) = body.parts :=
      blockOf_behind [.token word, head]
        (by simpa [Tree.isA, Tree.rule?] using Tree.fits_isA (r := .block) suits ⟨rfl, rfl⟩) block
    have hbranches : branchesOf (.node .ifBlock line (.token word :: head :: body :: bs)) = bs := by
      have hno : ∀ r ∈ continuations .ifBlock, head.isA r = false ∧ body.isA r = false := by
        simp only [continuations, List.forall_mem_cons]
        exact ⟨⟨Tree.fits_isA suits ⟨rfl, rfl⟩, Tree.isA_ne block (by simp)⟩,
          ⟨Tree.fits_isA suits ⟨rfl, rfl⟩, Tree.isA_ne block (by simp)⟩, List.forall_mem_nil _⟩
      have hhead : isOneOf (continuations .ifBlock) head = false := by
        simpa [isOneOf] using fun r hr => (hno r hr).1
      have hbody : isOneOf (continuations .ifBlock) body = false := by
        simpa [isOneOf] using fun r hr => (hno r hr).2
      have hword : isOneOf (continuations .ifBlock) (.token word) = false := rfl
      simp only [branchesOf, List.filter_cons, hhead, hbody, hword, Bool.false_eq_true, if_false]
      exact List.filter_eq_self.2 fun p hp => by simpa [isOneOf, continuations] using each p hp
    obtain ⟨l, inner, rfl⟩ := Tree.isA_iff.1 block
    unfold statement
    unfold branches
    rw [branches_condition suits]
    unfold branches
    simp only [bind_assoc, pure_bind]
    refine (silent_condition hhead e).notes fun first => ?_
    refine (notes_inOwnScope hbody).bind fun made b k => ?_
    refine (notes_branches each parts.2.2.2 hps.2.2.2).bind fun rest c l => notes_pure fun hrest hmade => ?_
    refine Closed.passed ?_ rfl
    exact Closed.forks (hblock ▸ hmade) (by rwa [hbranches]) (.inl rfl)

theorem notes_tryBlock (hf : Formed Token.Sound g .plain (.node .tryBlock line ps))
    (h : NotesBlocks (.node .tryBlock line ps)) (hps : ∀ p ∈ ps, NotesBlocks p) :
    NotesStatement (.node .tryBlock line ps) := by
  intro e a m
  obtain _ | ⟨content, -, parts⟩ := hf
  cases content with
  | @tryBlock _ word body hs block each =>
    simp only [List.forall_mem_cons] at hps
    have hbody : NotesBlock body := h body (by simp [Tree.parts]) block
    have hblock : Script.blockOf (.token word :: body :: hs) = body.parts :=
      blockOf_behind [.token word] (by simp [Tree.isA, Tree.rule?]) block
    have hbranches : branchesOf (.node .tryBlock line (.token word :: body :: hs)) = hs := by
      have hbody : isOneOf (continuations .tryBlock) body = false := by
        obtain ⟨l, inner, rfl⟩ := Tree.isA_iff.1 block
        rfl
      have hword : isOneOf (continuations .tryBlock) (.token word) = false := rfl
      simp only [branchesOf, List.filter_cons, hbody, hword, Bool.false_eq_true, if_false]
      exact List.filter_eq_self.2 fun p hp => by simpa [isOneOf, continuations] using each p hp
    obtain ⟨l, inner, rfl⟩ := Tree.isA_iff.1 block
    unfold statement
    unfold handlers
    unfold handlers
    simp only [bind_assoc, pure_bind]
    refine (notes_inOwnScope hbody).bind fun made b k => ?_
    refine (notes_handlers each hps.2.2).bind fun rest c l => notes_pure fun hrest hmade => ?_
    refine Closed.passed ?_ rfl
    exact Closed.forks (hblock ▸ hmade) (by rwa [hbranches]) (.inr rfl)

theorem notes_whileBlock (hf : Formed Token.Sound g .plain (.node .whileBlock line ps))
    (h : NotesBlocks (.node .whileBlock line ps)) :
    NotesStatement (.node .whileBlock line ps) := by
  intro e a m
  obtain _ | ⟨content, -, parts⟩ := hf
  cases content with
  | @whileBlock _ word head body suits block =>
    have hhead : Calm g head := calm_fits (parts head (by simp)) suits
    obtain ⟨r, l, inner, rfl, -⟩ := Tree.fits_iff.1 suits
    have hnode : [Tree.token word, .node r l inner, body].find? Tree.isNode = some (.node r l inner) := rfl
    unfold statement
    simp only [hnode, map_eq_pure_bind, bind_assoc, pure_bind]
    refine (silent_condition hhead e).notes fun first => (notes_blockOf h).bind fun made b k => notes_pure ?_
    exact fun hmade => (hmade.owner (.inr (.inl rfl)) fun n => (or_iff_left List.not_mem_nil).symm).passed rfl

theorem notes_foreachBlock (hf : Formed Token.Sound g .plain (.node .foreachBlock line ps))
    (h : NotesBlocks (.node .foreachBlock line ps)) :
    NotesStatement (.node .foreachBlock line ps) := by
  intro e a m
  obtain _ | ⟨content, -, parts⟩ := hf
  cases content with
  | @foreachBlock _ word source names body suits output block =>
    have hsource : Calm g source := calm_fits (parts source (by simp)) suits
    obtain ⟨r, l, inner, rfl, -⟩ := Tree.fits_iff.1 suits
    have hfirst : Silent (nodeValue e 0 [.token word, .node r l inner, names, body]) := by
      refine silent_nodeValue (g := g) ?_ e
      rintro t ht
      obtain rfl := Option.some.inj ht
      exact hsource
    unfold statement
    refine hfirst.notes fun out => (Reports.silent (r := none) reports_iteratedTypes).notes fun tys => ?_
    refine (notes_opened h).mono fun _ b k hmade => (hmade.owner (.inr (.inr rfl)) fun n => ?_).passed rfl
    rw [← outputNames_eq]
    rfl

theorem notes_topNumber : Notes a m topNumber fun v b k => v = a.depth - 1 ∧ b = a ∧ k = m := by
  rintro s _ _ rfl rfl hx
  obtain ⟨rfl, rfl⟩ := Prod.mk.inj (Except.ok.inj hx)
  exact ⟨.refl rfl, fun _ => ⟨rfl, rfl, rfl⟩⟩

/-- The body of a function sees its parameters, and what is around it if functions do. -/
theorem notes_functionBlock (hf : Formed Token.Sound g .plain (.node .functionBlock line ps))
    (h : NotesBlocks (.node .functionBlock line ps)) :
    NotesStatement (.node .functionBlock line ps) := by
  intro e a m
  have hname : (nameOf? ps).isSome = true := by
    obtain _ | ⟨content, -, -⟩ := hf
    cases content with
    | @functionBlock _ word name declared body named each block =>
      refine List.find?_isSome.2 ⟨name, ?_, by simpa using named⟩
      simp [tokensOf, Tree.asToken?]
  obtain ⟨name, hname⟩ := Option.isSome_iff_exists.1 hname
  have hparameters : (((ps.filter (·.isA .parameter)).filterMap parameter?).map (·.1)).map (·.literal) =
      boundBy (.node .functionBlock line ps) := by
    simp only [boundBy, List.map_filterMap, parameter?, Option.map_map]
    rfl
  unfold statement
  rw [hname]
  refine notes_push.bind fun _ b k => notes_topNumber.bind fun floor b' k' => (notes_closed h).mono ?_
  rintro _ c l hbody ⟨rfl, rfl, rfl⟩ ⟨rfl, rfl⟩
  have hbranches : branchesOf (.node .functionBlock line ps) = [] := Script.branchesOf_eq_nil rfl
  refine Closed.passed (fun ha => ?_) rfl
  obtain ⟨rfl, hnoted⟩ := hbody stood_function
  refine ⟨Scopes.dropTop_push a, noted_one (noted_uncalled rfl) (fun n => (hnoted n).trans (or_congr_right ?_))
    (hbranches ▸ noted_nil)⟩
  refine uses_congr (fun _ => Iff.rfl) fun n => ?_
  have hplain : Tree.isA .functionBlock (.node .functionBlock line ps) = true := rfl
  rw [Env.knows_function, hparameters, inBlock, hplain]
  simp [declaredBy]
  tauto

/-- Listening notes the name where it is not known. -/
theorem notes_listening {root : Token} {event : Option Token} {supplied : List Supplied} :
    Notes a m (listening e root event supplied) fun _ b k =>
      b = a ∧ Noted m k fun n => some root.literal = some n ∧ ¬ e.Knows a n := by
  rw [listening_eq]
  refine notes_lookup ?_
  cases hfound : e.found a root.literal with
  | some binding =>
    have hknows : e.Knows a root.literal := by simp [Env.Knows, hfound]
    refine (Reports.silent reports_heard).alone.mono fun _ _ _ h => ⟨h.1, h.2 ▸ noted_none ?_⟩
    rintro n ⟨hn, hno⟩
    exact hno (Option.some.inj hn ▸ hknows)
  | none =>
    have hknows : ¬ e.Knows a root.literal := by simp [Env.Knows, hfound]
    refine notes_useService.bind fun _ b k => (Reports.silent reports_unheard).alone.mono ?_
    rintro _ _ _ ⟨rfl, rfl⟩ ⟨rfl, rfl⟩
    exact ⟨rfl, noted_insert hknows⟩

/-- A `when` notes what it listens to, and then what its block uses. -/
theorem notes_when {root : Token} (hgiven : ∀ e, Silent (argumentsOf e ps))
    (hroot : (ps.find? (·.isA .path)).bind Tree.firstToken? = some root)
    (h : NotesBlocks (.node .whenBlock line ps)) :
    NotesStatement (.node .whenBlock line ps) := by
  intro e a m
  have hcalled : calledBy (.node .whenBlock line ps) = some root.literal := congrArg (Option.map Token.literal) hroot
  have hbound : boundBy (.node .whenBlock line ps) ++ declaredBy (.node .whenBlock line ps) = Script.outputNames ps :=
    List.append_nil _
  have hbranches : branchesOf (.node .whenBlock line ps) = [] := Script.branchesOf_eq_nil rfl
  unfold statement
  refine (hgiven e).notes fun given => ?_
  rw [hroot]
  refine notes_listening.bind fun ty b k => (notes_opened h).mono ?_
  rintro _ c l hbody ⟨rfl, hn⟩
  refine Closed.passed (fun ha => ?_) rfl
  obtain ⟨rfl, hnoted⟩ := hbody ha
  refine ⟨rfl, noted_one (by rwa [hcalled]) (fun n => (hnoted n).trans (or_congr_right ?_)) (hbranches ▸ noted_nil)⟩
  refine uses_congr (fun _ => Iff.rfl) fun n => ?_
  rw [inBlock_iff rfl fun n hn => hn.knows, hbound, ← outputNames_eq]
  rfl

theorem notes_whenBlock (hf : Formed Token.Sound g .plain (.node .whenBlock line ps))
    (h : NotesBlocks (.node .whenBlock line ps)) :
    NotesStatement (.node .whenBlock line ps) := by
  have row {word event : Token} {target : Tree} {given rest : _}
      (hps : ps = .token word :: target :: .token event :: given :: rest)
      (isPath : target.isA .path = true) (arguments : given.isA .arguments = true) :
      (∀ e, Silent (argumentsOf e ps)) ∧ ((ps.find? (·.isA .path)).bind Tree.firstToken?).isSome = true := by
    obtain _ | ⟨-, -, parts⟩ := hf
    subst hps
    obtain ⟨own, row, rfl⟩ := Tree.isA_iff.1 arguments
    have hcalm : Calm g (.node .arguments own row) := ⟨parts _ (by simp), rfl⟩
    have hrow : ∀ p ∈ row, Calm g p := hcalm.part
    have hfront : ∀ p ∈ [Tree.token word, target, .token event], p.isA .arguments = false := by
      simp only [List.forall_mem_cons]
      exact ⟨rfl, Tree.isA_ne isPath (by simp), rfl, List.forall_mem_nil _⟩
    refine ⟨fun e => ?_, ?_⟩
    · have hargs : argumentsOf e (.token word :: target :: .token event :: .node .arguments own row :: rest) =
          suppliedBy e [] row >>= fun out => pure (some (.node .arguments own out.1), out.2) :=
        argumentsOf_front _ hfront
      rw [hargs]
      exact (silent_supplied hrow e []).bind fun _ => silent_pure
    · rw [List.find?_cons_of_neg (by simp [Tree.isA, Tree.rule?]), List.find?_cons_of_pos isPath]
      exact (parts target (by simp)).hasToken (Tree.isA_ne isPath (by simp)) (Tree.isA_ne isPath (by simp))
  obtain ⟨hgiven, hroot⟩ : (∀ e, Silent (argumentsOf e ps)) ∧
      ((ps.find? (·.isA .path)).bind Tree.firstToken?).isSome = true := by
    obtain _ | ⟨content, -, -⟩ := hf
    cases content with
    | whenBlock path arguments block => exact row rfl path arguments
    | whenAs path arguments output block => exact row rfl path arguments
  obtain ⟨root, hroot⟩ := Option.isSome_iff_exists.1 hroot
  exact notes_when hgiven hroot h

/-! ## Stories -/

/-- What checking a tree notes, as a statement, as a block and in its blocks. -/
structure TreeNotes (t : Tree) : Prop where
  statement : t.isStatement = true → NotesStatement t
  block : t.isA .block = true → NotesBlock t
  blocks : NotesBlocks t

theorem notes_statements {flow : Flow} (ht : ∀ t ∈ ts, t.isStatement = true) (h : ∀ t ∈ ts, TreeNotes t) :
    Notes a m (statements e flow ts) fun _ b k => Follows e a m ts b k := by
  induction ts generalizing a m flow with
  | nil => exact notes_pure follows_nil
  | cons t ts ih =>
    rw [List.forall_mem_cons] at ht h
    cases t with
    | token u => cases ht.1
    | node rule line ps =>
      unfold statements
      refine (Reports.silent (r := none) reports_enter).notes fun flow => ?_
      refine (h.1.statement ht.1 e a m).bind fun made b k => (ih ht.2 h.2).bind fun rest c l => notes_pure ?_
      exact fun hrest hfirst => hfirst.cons hrest

theorem treeNotes_of_formed (h : Formed Token.Sound g .plain t) : TreeNotes t := by
  induction h with
  | token u => exact ⟨by simp [Tree.isStatement, Tree.rule?], by simp [Tree.isA, Tree.rule?], List.forall_mem_nil _⟩
  | @node rule line ps content own parts ih =>
    have hf : Formed Token.Sound g .plain (.node rule line ps) := .node content own parts
    have hps : ∀ p ∈ ps, NotesBlocks p := fun p hp => (ih p hp).blocks
    have blocks : NotesBlocks (.node rule line ps) := fun p hp => (ih p hp).block
    refine ⟨fun hs => ?_, fun hb => ?_, blocks⟩
    · cases rule with
      | assignment =>
        intro e a m
        unfold statement
        exact (notes_assignment hf).bind fun _ _ _ => notes_pure id
      | serviceCall => exact notes_call (.inl rfl) hf blocks
      | mutation => exact notes_call (.inr rfl) hf blocks
      | functionCall | expressionStatement =>
        intro e a m
        unfold statement
        refine Silent.passed ((silent_value ⟨hf, rfl⟩ e).bind fun _ => silent_pure) ?_ (Script.branchesOf_eq_nil rfl) rfl rfl
        exact noBlock_of_formed hf (by simp)
      | ifBlock => exact notes_ifBlock hf blocks hps
      | tryBlock => exact notes_tryBlock hf blocks hps
      | whileBlock => exact notes_whileBlock hf blocks
      | foreachBlock => exact notes_foreachBlock hf blocks
      | functionBlock => exact notes_functionBlock hf blocks
      | whenBlock => exact notes_whenBlock hf blocks
      | returnStatement =>
        intro e a m
        unfold statement
        exact Silent.passed ((silent_returned (calm_ended (.inl rfl) hf) e).bind fun _ => silent_pure)
          (noBlock_of_formed hf (by simp)) (Script.branchesOf_eq_nil rfl) rfl rfl
      | throwStatement =>
        intro e a m
        unfold statement
        exact Silent.passed ((silent_nodeValue (calm_ended (.inr rfl) hf) e).bind fun _ => silent_pure)
          (noBlock_of_formed hf (by simp)) (Script.branchesOf_eq_nil rfl) rfl rfl
      | importStatement => exact notes_importStatement hf
      | breakStatement | continueStatement =>
        intro e a m
        unfold statement
        exact silent_pure.passed (noBlock_of_formed hf (by simp)) (Script.branchesOf_eq_nil rfl) rfl rfl
      | _ => simp [Tree.isStatement, Tree.rule?, Rule.isStatement] at hs
    · cases rule with
      | block =>
        cases content with
        | block each => exact fun e a m => notes_statements each ih
      | _ => simp [Tree.isA, Tree.rule?] at hb

/-- The services of a story that is checked without errors are those that its statements use. -/
theorem story_uses {features : Features} {registry : Option Registry} {root : Scope} {analysis : Analysis}
    (hf : ∀ p ∈ ps, Formed Token.Sound g .plain p) (hs : ∀ p ∈ ps, p.isStatement = true)
    (h : story features registry root (.of .start ps) = .ok (t, analysis))
    (hd : ∀ d ∈ analysis.diagnostics, d.isError = false) :
    n ∈ analysis.services ↔ Uses features.globals (fun n => (root.get? n).isSome = true)
      (fun n => (root.get? n).isSome = true) ps n := by
  obtain ⟨functions, s, ts, s', hscopes, hservices, hrun, hanalysis, hreports, -⟩ := story_run h
  have hclean : s'.Clean := fun d hd' => hd d (by rwa [hreports, List.mem_reverse])
  let e : Env := { features, registry, functions, body := none }
  have hstood : Stood e (Scopes.ofRoot root).push := ⟨by simp [Scopes.push], fun body hb => by cases hb⟩
  have hknows : ∀ n, e.Knows (Scopes.ofRoot root).push n ↔ (root.get? n).isSome = true := fun n => by
    rw [Env.knows_push, Env.knows_iff]
    simp [Scopes.ofRoot]
  obtain ⟨-, hfollows⟩ := notes_statements hs (fun p hp => treeNotes_of_formed (hf p hp)) s ts s' hscopes hservices hrun
  have hnoted := (hfollows hclean hstood).2 n
  rw [hanalysis, hnoted, or_iff_right (by simp [NameMap.names, NameMap.empty])]
  exact uses_congr (fun _ => Iff.rfl) hknows

/-- The names of the services stay in order. -/
def ordered : Steps fun _ => True where
  rel s t := s.services.names.Pairwise (· < ·) → t.services.names.Pairwise (· < ·)
  trans h h' hs := h' (h hs)
  reported _ hservices _ hs := hservices ▸ hs
  used _ hs := NameMap.sorted_insert hs
  declared _ hs := hs
  redeclared hs := hs
  closed h hs := h hs

/-- The services of a story are in the order of their names, each one once. -/
theorem story_ordered {features : Features} {registry : Option Registry} {root : Scope} {analysis : Analysis}
    (h : story features registry root (.of .start ps) = .ok (t, analysis)) :
    analysis.services.Pairwise (· < ·) := by
  obtain ⟨functions, s, ts, s', -, hservices, hrun, hanalysis, -⟩ := story_run h
  rw [hanalysis]
  refine keeps_statements ordered roots_any (fun _ _ => trivial) _ _ s ts s' hrun ?_
  rw [hservices]
  exact .nil

end Check

end StoryLang
