/-
What the records of a script call.

A record calls or listens to what its container names. That is a service, unless
it is a variable where the record stands. What a record calls and which names it
declares can be told from its statement, so the same is said of statements:
`Uses` follows them as checking does, and their records call what they use.

A name becomes known only from what is in front. So of all the records in front
of one, just those count that are in a block around it.
-/
import StoryLang.Proofs.Script.OfTree
import StoryLang.Proofs.Script.Stands

namespace StoryLang

/-- What a record calls or listens to. -/
def Record.called (r : Record) : Option String :=
  if r.method = .execute ∨ r.method = .whenMethod then r.container else none

theorem Record.called_iff {r : Record} {n : String} :
    r.called = some n ↔ (r.method = .execute ∨ r.method = .whenMethod) ∧ r.container = some n := by
  unfold called
  split <;> simp_all

namespace Script

variable {g : Grammar} {globals : Bool} {base known : String → Prop} {n : String}
  {parent : Option Coord} {rule : Rule} {line own : Option Coord} {t v : Tree} {ps ts : List Tree}
  {r r' : Record} {front new rs us body : List Record}

/-! ## What a statement calls and declares -/

/-- The name that the first path of a row starts with. -/
def rootOf? (ps : List Tree) : Option String :=
  ((ps.find? (·.isA .path)).bind Tree.firstToken?).map (·.literal)

/-- What a value calls, if it is a call of a service. -/
def calledIn? : Tree → Option String
  | .node .serviceCall _ ps => rootOf? ps
  | _ => none

/-- The variable that a path is, if it is no part of one. -/
def wholeName? : Tree → Option String
  | .node .path _ [.token root] => some root.literal
  | _ => none

/-- What a statement calls or listens to. -/
def calledBy : Tree → Option String
  | .node .serviceCall _ ps | .node .whenBlock _ ps => rootOf? ps
  | .node .assignment _ ps => ps.getLast?.bind calledIn?
  | _ => none

/-- The names that a statement declares for those behind it in its block. -/
def declaredBy : Tree → List String
  | .node .assignment _ ps => (ps.head?.bind wholeName?).toList
  | .node .serviceCall _ ps | .node .mutation _ ps => outputNames ps
  | .node .importStatement _ ps => (nameIn? ps).toList
  | _ => []

/-- The names that a statement or a branch declares in its block. -/
def boundBy : Tree → List String
  | .node .foreachBlock _ ps | .node .catchBlock _ ps | .node .whenBlock _ ps => outputNames ps
  | .node .functionBlock _ ps =>
    (ps.filter (·.isA .parameter)).filterMap fun p => p.firstToken?.map (·.literal)
  | _ => []

/-- The names known at the start of the block of a statement, from those known at the statement.
Those of `base` are known everywhere. -/
def inBlock (globals : Bool) (base known : String → Prop) (t : Tree) (n : String) : Prop :=
  base n ∨ n ∈ boundBy t ∨
    (globals = true ∨ t.isA .functionBlock = false) ∧ (known n ∨ n ∈ declaredBy t)

/-! ## Records and their statements -/

/-- The record says of calls and names what can be told from the statement. -/
structure Tells (r : Record) (t : Tree) : Prop where
  called : r.called = calledBy t
  declared : r.declared = declaredBy t
  bound : r.bound = boundBy t
  function : r.method = .function ↔ t.isA .functionBlock = true

/-- Where a record is and where it leads to does not count. -/
theorem Describes.tells (hd : Describes r t) (h : ∀ line r, recordOf line t = .ok r → Tells r t) :
    Tells r t := by
  obtain ⟨line, r₀, hr, hbare⟩ := hd
  have h := h line r₀ hr
  have same : ∀ {α : Type} (f : Record → α), (∀ r, f (bareOf r) = f r) → f r = f r₀ :=
    fun f hf => by rw [← hf r, hbare, hf]
  refine ⟨?_, ?_, ?_, ?_⟩
  · rw [same Record.called fun _ => rfl, h.called]
  · rw [same Record.declared fun _ => rfl, h.declared]
  · rw [same Record.bound fun _ => rfl, h.bound]
  · rw [same Record.method fun _ => rfl, h.function]

/-- A statement that a record evaluates: what it calls, and what it declares if it is assigned to
nothing. -/
theorem fill_tells (h : fill r v = .ok r') :
    r'.called = calledIn? v ∧ r'.bound = [] ∧ r'.method ≠ .function ∧
      (r.target = none → v.isCall = true → r'.declared = declaredBy v) := by
  cases v with
  | token u =>
    obtain ⟨_, -, h⟩ := ok_of_bind h
    cases h
    exact ⟨rfl, rfl, by simp, fun _ hc => by cases hc⟩
  | node rule line ps =>
    cases rule with
    | serviceCall =>
      obtain ⟨service, hservice, h⟩ := ok_of_bind h
      obtain ⟨_, -, h⟩ := ok_of_bind h
      obtain rfl := Except.ok.inj h
      have hroot : (ps.find? (·.isA .path)).bind Tree.firstToken? = some service := some_of_orDefect hservice
      refine ⟨?_, rfl, by simp, fun ht _ => ?_⟩
      · simp [Record.called, calledIn?, rootOf?, hroot]
      · rw [Record.declared]
        simp only [ht]
        rfl
    | mutation =>
      obtain ⟨_, -, h⟩ := ok_of_bind h
      obtain ⟨_, -, h⟩ := ok_of_bind h
      obtain rfl := Except.ok.inj h
      refine ⟨rfl, rfl, by simp, fun ht _ => ?_⟩
      rw [Record.declared]
      simp only [ht]
      rfl
    | functionCall =>
      obtain ⟨_, -, h⟩ := ok_of_bind h
      obtain ⟨_, -, h⟩ := ok_of_bind h
      obtain rfl := Except.ok.inj h
      refine ⟨rfl, rfl, by simp, fun ht _ => ?_⟩
      rw [Record.declared]
      simp only [ht]
      rfl
    | _ =>
      obtain ⟨_, -, h⟩ := ok_of_bind h
      obtain rfl := Except.ok.inj h
      exact ⟨rfl, rfl, by simp, fun _ hc => by cases hc⟩

theorem tells_call {c : Coord} (hr : rule = .serviceCall ∨ rule = .mutation ∨ rule = .functionCall)
    (h : recordOf c (.node rule own ps) = .ok r) : Tells r (.node rule own ps) := by
  have hfill : fill (.bare .expression c) (.node rule own ps) = .ok r := by
    rcases hr with rfl | rfl | rfl <;> exact h
  obtain ⟨hcalled, hbound, hmethod, hdeclared⟩ := fill_tells hfill
  rcases hr with rfl | rfl | rfl
  all_goals exact ⟨hcalled, hdeclared rfl rfl, hbound, iff_of_false hmethod (by simp [Tree.isA, Tree.rule?])⟩

/-- An assignment calls what its value calls, and declares its target unless that is a part of
a variable. -/
theorem tells_assignment {c : Coord} {root sign : Token} {fs : List Tree} (hv : v.isNode = true)
    (h : recordOf c (.node .assignment own [.node .path line (.token root :: fs), .token sign, v]) = .ok r) :
    Tells r (.node .assignment own [.node .path line (.token root :: fs), .token sign, v]) := by
  have h : (Value.ofPathParts (.token root :: fs) >>= fun parts =>
      fill { Record.bare .expression c with target := some parts } v) = .ok r := by
    cases v with
    | token u => cases hv
    | node vr vl vps => exact h
  obtain ⟨parts, hparts, h⟩ := ok_of_bind h
  obtain ⟨hcalled, hbound, hmethod, -⟩ := fill_tells h
  refine ⟨hcalled, ?_, hbound, iff_of_false hmethod (by simp [Tree.isA, Tree.rule?])⟩
  have htarget : r.target = some parts := target_fill h
  obtain ⟨rest, hrest, hparts⟩ := ok_of_bind hparts
  obtain rfl := Except.ok.inj hparts
  cases fs with
  | nil =>
    obtain rfl := Except.ok.inj hrest
    simp [Record.declared, htarget, declaredBy, wholeName?]
  | cons f fs =>
    obtain ⟨part, rest', rfl⟩ : ∃ part rest', rest = part :: rest' := by
      cases f with
      | token u =>
        obtain ⟨_, -, hrest⟩ := ok_of_bind hrest
        exact ⟨_, _, (Except.ok.inj hrest).symm⟩
      | node fr fl fps =>
        rw [Value.ofPathParts_node] at hrest
        obtain ⟨_, -, hrest⟩ := ok_of_bind hrest
        obtain ⟨_, -, hrest⟩ := ok_of_bind hrest
        exact ⟨_, _, (Except.ok.inj hrest).symm⟩
    simp [Record.declared, htarget, declaredBy, wholeName?]

/-- The parameters of a function are the names that its record binds. -/
theorem bound_of_parameters (hm : r.method = .function) (h : ts.mapM parameter = .ok r.args) :
    r.bound = ts.filterMap fun p => p.firstToken?.map (·.literal) := by
  induction ts generalizing r with
  | nil =>
    have hargs : [] = r.args := Except.ok.inj h
    simp [Record.bound, hm, ← hargs]
  | cons t ts ih =>
    rw [List.mapM_cons] at h
    obtain ⟨v, hv, h⟩ := ok_of_bind h
    obtain ⟨rest, hrest, h⟩ := ok_of_bind h
    have hargs : v :: rest = r.args := Except.ok.inj h
    have ih := ih (r := { r with args := rest }) hm hrest
    unfold parameter at hv
    split at hv
    · rename_i name types hname _
      obtain rfl := Except.ok.inj hv
      simp only [Record.bound, hm, ← hargs, List.filterMap_cons, hname, Option.map_some] at ih ⊢
      rw [ih]
    · cases hv

/-- The record of a statement or a branch. -/
theorem tells_of_formed (hf : Formed Token.Sound g .plain t) (hd : Describes r t) : Tells r t := by
  refine hd.tells fun c r h => ?_
  -- a record whose values do not count
  have one {α : Type} {x : Except Fault α} {f : α → Record} (h : x >>= (fun a => pure (f a)) = .ok r)
      (hx : ∀ a, Tells (f a) t) : Tells r t := by
    obtain ⟨a, -, h⟩ := ok_of_bind h
    obtain rfl := Except.ok.inj h
    exact hx a
  cases hf with
  | token u => cases h
  | @node rule own ps content _ parts =>
    cases rule with
    | assignment =>
      cases content with
      | @assignment _ target sign v path value =>
        obtain ⟨line, tps, rfl⟩ := Tree.isA_iff.1 path
        obtain _ | ⟨target, -, -⟩ := parts (.node .path line tps) (by simp)
        have hv : v.isNode = true := by
          cases v with
          | token u => simp [Tree.fits, Tree.isCall, Tree.rule?] at value
          | node => rfl
        cases target with
        | path kind each => exact tells_assignment hv h
    | serviceCall | mutation | functionCall => exact tells_call (by simp) h
    | expressionStatement | ifBlock | elifBlock | foreachBlock | whileBlock | returnStatement | throwStatement =>
      exact one h fun _ => ⟨rfl, rfl, rfl, by simp [Record.bare, Tree.isA, Tree.rule?]⟩
    | elseBlock | tryBlock | catchBlock | finallyBlock | breakStatement | continueStatement =>
      obtain rfl := Except.ok.inj h
      exact ⟨rfl, rfl, rfl, by simp [Record.bare, Tree.isA, Tree.rule?]⟩
    | functionBlock =>
      obtain ⟨name, -, h⟩ := ok_of_bind h
      obtain ⟨vs, hvs, h⟩ := ok_of_bind h
      obtain rfl := Except.ok.inj h
      exact ⟨rfl, rfl, bound_of_parameters rfl hvs, by simp [Record.bare, Tree.isA, Tree.rule?]⟩
    | whenBlock =>
      obtain ⟨target, htarget, h⟩ := ok_of_bind h
      obtain ⟨vs, hvs, h⟩ := ok_of_bind h
      obtain rfl := Except.ok.inj h
      have hfind : ps.find? (·.isA .path) = some target := some_of_orDefect htarget
      refine ⟨?_, rfl, rfl, by simp [Record.bare, Tree.isA, Tree.rule?]⟩
      simp [Record.called, Record.bare, calledBy, rootOf?, hfind]
    | importStatement =>
      unfold recordOf at h
      dsimp only [Tree.rule?, Tree.parts] at h
      split at h
      · rename_i path name _ hname
        refine one h fun _ => ⟨rfl, ?_, rfl, by simp [Record.bare, Tree.isA, Tree.rule?]⟩
        simp [Record.declared, Record.bare, declaredBy, hname]
      · cases h
    | _ => cases h

/-! ## What statements use -/

/-- The statements or branches of a row call or listen to the name where it is not known. -/
inductive Uses (globals : Bool) (base : String → Prop) : (String → Prop) → List Tree → String → Prop where
  | own {known : String → Prop} {t : Tree} {ts : List Tree} {n : String} (called : calledBy t = some n)
      (unknown : ¬ known n) : Uses globals base known (t :: ts) n
  | inside {known : String → Prop} {t : Tree} {ts : List Tree} {n : String}
      (used : Uses globals base (inBlock globals base known t) (blockOf t.parts) n) :
      Uses globals base known (t :: ts) n
  | behind {known : String → Prop} {t : Tree} {ts : List Tree} {n : String}
      (used : Uses globals base known (branchesOf t) n) : Uses globals base known (t :: ts) n
  | others {known : String → Prop} {t : Tree} {ts : List Tree} {n : String}
      (used : Uses globals base (fun n => known n ∨ n ∈ declaredBy t) ts n) :
      Uses globals base known (t :: ts) n

theorem not_uses_nil : ¬ Uses globals base known [] n := by
  intro h
  cases h

theorem uses_cons : Uses globals base known (t :: ts) n ↔ calledBy t = some n ∧ ¬ known n ∨
    Uses globals base (inBlock globals base known t) (blockOf t.parts) n ∨
    Uses globals base known (branchesOf t) n ∨
    Uses globals base (fun n => known n ∨ n ∈ declaredBy t) ts n := by
  constructor
  · intro h
    cases h with
    | own called unknown => exact .inl ⟨called, unknown⟩
    | inside used => exact .inr (.inl used)
    | behind used => exact .inr (.inr (.inl used))
    | others used => exact .inr (.inr (.inr used))
  · rintro (⟨called, unknown⟩ | used | used | used)
    · exact .own called unknown
    · exact .inside used
    · exact .behind used
    · exact .others used

/-! ## What is known in a block -/

/-- The coordinates of the records increase, and each is behind the owner of its block. -/
structure Nested (rs : List Record) : Prop where
  order : (rs.map (·.line)).Pairwise (· < ·)
  behind : ∀ r ∈ rs, ∀ c, r.parent = some c → c < r.line

theorem Nested.append (h : Nested (rs ++ us)) : Nested rs where
  order := by
    have h := h.order
    rw [List.map_append] at h
    exact (List.pairwise_append.1 h).1
  behind r hr := h.behind r (List.mem_append_left _ hr)

/-- Every record in front of another has a smaller coordinate. -/
theorem Nested.lt (h : Nested (rs ++ us)) {p q : Record} (hp : p ∈ rs) (hq : q ∈ us) : p.line < q.line := by
  have h := h.order
  rw [List.map_append] at h
  exact (List.pairwise_append.1 h).2.2 _ (List.mem_map_of_mem hp) _ (List.mem_map_of_mem hq)

/-- Each of the records is in the block of `parent` or in that of another of them. -/
def Within (parent : Option Coord) (rs : List Record) : Prop :=
  ∀ q ∈ rs, q.parent = parent ∨ ∃ o ∈ rs, q.parent = some o.line

/-- What more records make known in a block that they are in, or in one around that. -/
theorem Known.of_append {p : Option Coord} (h : Known globals (front ++ new) p n)
    (hfront : ∀ q ∈ front, ∀ c, q.parent = some c → c < q.line) (hnew : Within parent new)
    (hlt : ∀ c, parent = some c → ∀ q ∈ new, c < q.line)
    (hp : ∀ c, p = some c → ∃ d, parent = some d ∧ ¬ d < c) :
    Known globals front p n ∨ p = parent ∧ ∃ q ∈ new, q.parent = parent ∧ n ∈ q.declared := by
  -- a block of one of the new records is further in
  have inner : ∀ q ∈ new, p ≠ some q.line := by
    rintro q hq rfl
    obtain ⟨d, hd, hle⟩ := hp _ rfl
    exact hle (hlt d hd q hq)
  induction h with
  | @declared q n mem name =>
    rcases List.mem_append.1 mem with mem | mem
    · exact .inl (.declared mem name)
    · rcases hnew q mem with hq | ⟨o, ho, hq⟩
      · exact .inr ⟨hq, q, mem, hq, name⟩
      · exact absurd hq (inner o ho)
  | @bound owner n mem name =>
    rcases List.mem_append.1 mem with mem | mem
    · exact .inl (.bound mem name)
    · exact absurd rfl (inner owner mem)
  | @outer owner n mem sees known ih =>
    rcases List.mem_append.1 mem with mem | mem
    · obtain ⟨d, hd, hle⟩ := hp _ rfl
      have hp' : ∀ c, owner.parent = some c → c < d := fun c hc => by
        have hc := hfront owner mem c hc
        rcases Coord.lt_or_eq_or_lt d owner.line with h | rfl | h
        · exact absurd h hle
        · exact hc
        · exact Coord.lt_trans hc h
      have hinner : ∀ q ∈ new, owner.parent ≠ some q.line := fun q hq hc =>
        Coord.lt_irrefl d (Coord.lt_trans (hlt d hd q hq) (hp' _ hc))
      rcases ih (fun c hc => ⟨d, hd, fun h => Coord.lt_irrefl _ (Coord.lt_trans h (hp' c hc))⟩) hinner with
        h | ⟨h, -⟩
      · exact .inl (.outer mem sees h)
      · exact absurd (hp' d (h.trans hd)) (Coord.lt_irrefl d)
    · exact absurd rfl (inner owner mem)

/-- What is known behind more records of a block. -/
theorem known_append (h : Nested (front ++ new)) (hnew : Within parent new)
    (hlt : ∀ c, parent = some c → ∀ q ∈ new, c < q.line) :
    Known globals (front ++ new) parent n ↔
      Known globals front parent n ∨ ∃ q ∈ new, q.parent = parent ∧ n ∈ q.declared := by
  constructor
  · intro hk
    refine (hk.of_append h.append.behind hnew hlt fun c hc => ⟨c, hc, Coord.lt_irrefl c⟩).imp_right ?_
    exact And.right
  · rintro (hk | ⟨q, hq, rfl, hn⟩)
    · exact hk.mono (List.subset_append_left _ _)
    · exact .declared (List.mem_append_right _ hq) hn

/-- What is known at the start of a block. -/
theorem known_block (h : Nested (front ++ [r])) : Known globals (front ++ [r]) (some r.line) n ↔
    r.within globals (Known globals front r.parent) n := by
  constructor
  · intro hk
    have alone : ∀ q ∈ front ++ [r], q.line = r.line → q = r := by
      intro q hq hl
      rcases List.mem_append.1 hq with hq | hq
      · exact absurd (hl ▸ h.lt hq (List.mem_singleton_self r)) (Coord.lt_irrefl _)
      · exact List.mem_singleton.1 hq
    generalize hp : some r.line = p at hk
    cases hk with
    | @declared q _ mem name =>
      have hlt := h.behind q mem _ hp.symm
      rcases List.mem_append.1 mem with mem | mem
      · exact absurd (Coord.lt_trans hlt (h.lt mem (List.mem_singleton_self r))) (Coord.lt_irrefl _)
      · obtain rfl := List.mem_singleton.1 mem
        exact absurd hlt (Coord.lt_irrefl _)
    | @bound owner _ mem name =>
      obtain rfl := alone owner mem (Option.some.inj hp).symm
      exact .inl name
    | @outer owner _ mem sees known =>
      obtain rfl := alone owner mem (Option.some.inj hp).symm
      have hbefore : ∀ c, owner.parent = some c → ∀ q ∈ [owner], c < q.line := by
        rintro c hc q hq
        obtain rfl := List.mem_singleton.1 hq
        exact h.behind q mem c hc
      refine .inr ⟨sees, ((known_append h ?_ hbefore).1 known).imp_right ?_⟩
      · rintro q hq
        obtain rfl := List.mem_singleton.1 hq
        exact .inl rfl
      · rintro ⟨q, hq, -, hn⟩
        obtain rfl := List.mem_singleton.1 hq
        exact hn
  · exact Known.of_within (by simp) fun n hn => hn.mono (List.subset_append_left _ _)

/-! ## The records of statements -/

/-- The records of a row call or listen to the name where those in front do not make it known. -/
def Calls (globals : Bool) (base : String → Prop) (front : List Record) : List Record → String → Prop
  | [], _ => False
  | r :: rs, n => r.called = some n ∧ ¬ (base n ∨ Known globals front r.parent n) ∨
    Calls globals base (front ++ [r]) rs n

theorem calls_append : Calls globals base front (rs ++ us) n ↔
    Calls globals base front rs n ∨ Calls globals base (front ++ rs) us n := by
  induction rs generalizing front with
  | nil => simp [Calls]
  | cons r rs ih => simp [Calls, ih, or_assoc]

theorem calls_iff : Calls globals base front rs n ↔ ∃ before r after, rs = before ++ r :: after ∧
    r.called = some n ∧ ¬ (base n ∨ Known globals (front ++ before) r.parent n) := by
  induction rs generalizing front with
  | nil => simp [Calls]
  | cons q rs ih =>
    rw [Calls, ih]
    constructor
    · rintro (h | ⟨before, r, after, rfl, h⟩)
      · exact ⟨[], q, rs, rfl, by simpa using h⟩
      · exact ⟨q :: before, r, after, rfl, by simpa using h⟩
    · rintro ⟨before, r, after, hrs, h⟩
      cases before with
      | nil =>
        obtain ⟨rfl, rfl⟩ := List.cons.inj hrs
        exact .inl (by simpa using h)
      | cons p before =>
        obtain ⟨rfl, rfl⟩ := List.cons.inj hrs
        exact .inr ⟨before, r, after, rfl, by simpa using h⟩

theorem formed_inBlock (h : Formed Token.Sound g .plain t) :
    ∀ u ∈ blockOf t.parts, Formed Token.Sound g .plain u := by
  intro u hu
  have parts : ∀ p ∈ t.parts, Formed Token.Sound g .plain p := by
    obtain _ | ⟨-, -, parts⟩ := h
    · exact List.forall_mem_nil _
    · exact parts
  unfold blockOf at hu
  cases hb : t.parts.find? (·.isA .block) with
  | none => simp [hb] at hu
  | some b =>
    rw [hb] at hu
    obtain _ | ⟨-, -, each⟩ := parts b (List.mem_of_find?_eq_some hb)
    · cases hu
    · exact each u hu

/-- Branches have no branches of their own, and declare nothing behind them. -/
theorem formed_behind (h : Formed Token.Sound g .plain t) :
    ∀ u ∈ branchesOf t, Formed Token.Sound g .plain u ∧ branchesOf u = [] ∧ declaredBy u = [] := by
  intro u hu
  cases h with
  | token => cases hu
  | node _ _ parts =>
    obtain ⟨hu, hone⟩ := List.mem_filter.1 hu
    cases u with
    | token => simp [isOneOf, Tree.isA, Tree.rule?] at hone
    | node rule line ps =>
      have hbranch := isBranch_of_isOneOf hone
      refine ⟨parts _ hu, branchesOf_eq_nil (continuations_branch hbranch), ?_⟩
      cases rule <;> first | rfl | exact absurd hbranch (by decide)

/-- The records of a row are nested if their coordinates increase, behind that of the owner. -/
theorem Written.nested (h : Written parent ts rs)
    (ho : (parent.toList ++ rs.map (·.line)).Pairwise (· < ·)) : Nested rs := by
  refine ⟨(List.pairwise_append.1 ho).2.1, ?_⟩
  induction h with
  | nil => exact List.forall_mem_nil _
  | @cons parent t r body branches rest ts describes place inside behind others ih ih' ih'' =>
    have hbody : ([r.line] ++ body.map (·.line)).Pairwise (· < ·) := ho.sublist (by simp)
    have behindParent {us : List Record} (hu : us.Sublist (branches ++ rest)) :
        (parent.toList ++ us.map (·.line)).Pairwise (· < ·) :=
      ho.sublist (((hu.trans (List.sublist_append_right body _)).cons r |>.map _).append_left _)
    have hbranches := behindParent (List.sublist_append_left branches rest)
    have hrest := behindParent (List.sublist_append_right branches rest)
    simp only [List.forall_mem_cons, List.forall_mem_append]
    refine ⟨fun c hc => ?_, ih hbody, ih' hbranches, ih'' hrest⟩
    exact (List.pairwise_append.1 ho).2.2 c (by simp [← place, hc]) r.line (by simp)

theorem Written.within (h : Written parent ts rs) : Within parent rs := by
  induction h with
  | nil => exact List.forall_mem_nil _
  | @cons parent t r body branches rest ts describes place inside behind others ih ih' ih'' =>
    simp only [Within, List.forall_mem_cons, List.forall_mem_append]
    refine ⟨.inl place, fun q hq => .inr ?_, fun q hq => ?_, fun q hq => ?_⟩
    · rcases ih q hq with hl | ⟨o, ho, hl⟩
      · exact ⟨r, by simp, hl⟩
      · exact ⟨o, by simp [ho], hl⟩
    · exact (ih' q hq).imp_right (Exists.imp fun o ho => ⟨by simp [ho.1], ho.2⟩)
    · exact (ih'' q hq).imp_right (Exists.imp fun o ho => ⟨by simp [ho.1], ho.2⟩)

/-- The records of a row without branches that are in none of its blocks are those of the row. -/
theorem Written.tops (h : Written parent ts rs) (hb : ∀ t ∈ ts, branchesOf t = [])
    (hp : ∀ c, parent = some c → ∀ q ∈ rs, c < q.line) :
    ∀ q ∈ rs, q.parent = parent → ∃ t ∈ ts, Describes q t := by
  induction h with
  | nil => exact fun q hq => absurd hq List.not_mem_nil
  | @cons parent t r body branches rest ts describes place inside behind others _ _ ih =>
    obtain ⟨hb, hbs⟩ := List.forall_mem_cons.1 hb
    rw [hb] at behind
    cases behind
    intro q hq hqp
    simp only [List.mem_cons, List.mem_append, List.not_mem_nil, false_or] at hq
    rcases hq with rfl | hq | hq
    · exact ⟨t, List.mem_cons_self, describes⟩
    · -- what is in the block is further in
      obtain ⟨o, ho, hl⟩ : ∃ o ∈ r :: body, q.parent = some o.line := by
        rcases inside.within q hq with hl | ⟨o, ho, hl⟩
        · exact ⟨r, by simp, hl⟩
        · exact ⟨o, by simp [ho], hl⟩
      refine absurd (hp o.line (hqp.symm.trans hl) o ?_) (Coord.lt_irrefl _)
      simp only [List.mem_cons, List.mem_append] at ho ⊢
      exact ho.imp_right .inl
    · obtain ⟨u, hu, hd⟩ := ih hbs (fun c hc q hq => hp c hc q (by simp [hq])) q hq hqp
      exact ⟨u, List.mem_cons_of_mem _ hu, hd⟩

/-- A record with those of its block is in the block that the record is in. -/
theorem Within.cons (h : Within (some r.line) body) : Within r.parent (r :: body) := by
  refine List.forall_mem_cons.2 ⟨.inl rfl, fun q hq => .inr ?_⟩
  rcases h q hq with hl | ⟨o, ho, hl⟩
  · exact ⟨r, by simp, hl⟩
  · exact ⟨o, by simp [ho], hl⟩

theorem Within.append (h : Within parent rs) (h' : Within parent us) : Within parent (rs ++ us) := by
  refine List.forall_mem_append.2 ⟨fun q hq => ?_, fun q hq => ?_⟩
  · exact (h q hq).imp_right (Exists.imp fun o ho => ⟨by simp [ho.1], ho.2⟩)
  · exact (h' q hq).imp_right (Exists.imp fun o ho => ⟨by simp [ho.1], ho.2⟩)

/-- Only its owner is in the block that the owner of a block is in. -/
theorem Within.owner (h : Within (some r.line) body) (hlt : ∀ c, parent = some c → ∀ q ∈ r :: body, c < q.line) :
    ∀ q ∈ body, q.parent ≠ parent := by
  rintro q hq rfl
  rcases h q hq with hl | ⟨o, ho, hl⟩
  · exact Coord.lt_irrefl _ (hlt _ hl r List.mem_cons_self)
  · exact Coord.lt_irrefl _ (hlt _ hl o (List.mem_cons_of_mem _ ho))

/-- What has branches declares nothing. -/
theorem declaredBy_of_branches (h : branchesOf t ≠ []) : declaredBy t = [] := by
  cases t with
  | token u => rfl
  | node rule line ps =>
    cases rule <;> first | rfl | exact absurd (branchesOf_eq_nil rfl) h

/-- The records of statements call what the statements use. -/
theorem Written.calls (h : Written parent ts rs) (ht : ∀ t ∈ ts, Formed Token.Sound g .plain t) (hn : Nested (front ++ rs))
    (hk : ∀ n, known n ↔ base n ∨ Known globals front parent n) :
    Uses globals base known ts n ↔ Calls globals base front rs n := by
  induction h generalizing known front with
  | nil => exact iff_of_false not_uses_nil id
  | @cons parent t r body branches rest ts describes place inside behind others ih ih' ih'' =>
    subst place
    obtain ⟨ht, hts⟩ := List.forall_mem_cons.1 ht
    have tells := tells_of_formed ht describes
    have hrest : Nested ((front ++ (r :: body ++ branches)) ++ rest) := by simpa using hn
    have hbranches : Nested ((front ++ (r :: body)) ++ branches) := by simpa using hrest.append
    have hbody : Nested ((front ++ [r]) ++ body) := by simpa using hbranches.append
    -- what is in the block of the row is behind its owner
    have hlt : ∀ c, r.parent = some c → ∀ q ∈ r :: body ++ branches, c < q.line := by
      intro c hc
      have hr : c < r.line := hn.behind r (by simp) c hc
      have hafter : Nested ((front ++ [r]) ++ (body ++ branches)) := by simpa using hrest.append
      refine List.forall_mem_cons.2 ⟨hr, fun q hq => Coord.lt_trans hr ?_⟩
      exact hafter.lt (by simp) hq
    have hltBody : ∀ c, r.parent = some c → ∀ q ∈ r :: body, c < q.line :=
      fun c hc q hq => hlt c hc q (List.mem_append_left _ hq)
    have hinner : ∀ n, inBlock globals base known t n ↔
        base n ∨ Known globals (front ++ [r]) (some r.line) n := by
      intro n
      have hfunction : r.method ≠ .function ↔ t.isA .functionBlock = false := by
        rw [ne_eq, tells.function, Bool.not_eq_true]
      rw [known_block hbody.append, inBlock, Record.within, tells.bound, tells.declared, hfunction, hk]
      tauto
    have hbehind : branchesOf t ≠ [] → ∀ n, known n ↔
        base n ∨ Known globals (front ++ (r :: body)) r.parent n := by
      intro hne n
      have hnone : ¬ ∃ q ∈ r :: body, q.parent = r.parent ∧ n ∈ q.declared := by
        rintro ⟨q, hq, hqp, hd⟩
        rcases List.mem_cons.1 hq with rfl | hq
        · simp [tells.declared, declaredBy_of_branches hne] at hd
        · exact inside.within.owner hltBody q hq hqp
      rw [known_append hbranches.append inside.within.cons hltBody, hk, or_iff_left hnone]
    have hothers : ∀ n, known n ∨ n ∈ declaredBy t ↔
        base n ∨ Known globals (front ++ (r :: body ++ branches)) r.parent n := by
      intro n
      have honly : (∃ q ∈ r :: body ++ branches, q.parent = r.parent ∧ n ∈ q.declared) ↔
          n ∈ declaredBy t := by
        rw [← tells.declared]
        refine ⟨?_, fun hd => ⟨r, by simp, rfl, hd⟩⟩
        rintro ⟨q, hq, hqp, hd⟩
        rcases List.mem_append.1 hq with hq | hq
        · rcases List.mem_cons.1 hq with rfl | hq
          · exact hd
          · exact absurd hqp (inside.within.owner hltBody q hq)
        · obtain ⟨u, hu, hdu⟩ := behind.tops (fun u hu => (formed_behind ht u hu).2.1)
            (fun c hc q hq => hlt c hc q (List.mem_append_right _ hq)) q hq hqp
          have hu := formed_behind ht u hu
          simp [(tells_of_formed hu.1 hdu).declared, hu.2.2] at hd
      rw [known_append hrest.append (inside.within.cons.append behind.within) hlt, hk, honly, or_assoc]
    have hbranch : Uses globals base known (branchesOf t) n ↔
        Calls globals base (front ++ (r :: body)) branches n := by
      by_cases hne : branchesOf t = []
      · rw [hne] at behind ⊢
        cases behind
        exact iff_of_false not_uses_nil id
      · exact ih' (fun u hu => (formed_behind ht u hu).1) hbranches (hbehind hne)
    have hrow := ih'' hts hrest hothers
    rw [uses_cons, Calls, calls_append, calls_append, ih (formed_inBlock ht) hbody hinner, ← tells.called, hk, hbranch, hrow]
    simp only [List.append_assoc, List.cons_append, List.nil_append]

end Script

end StoryLang
