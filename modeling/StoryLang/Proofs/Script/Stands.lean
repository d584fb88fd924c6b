/-
What it takes for a statement to read only known names.

A statement stands if its record reads only names that are known in front of
it, if its block and its branches do the same, and if nothing becomes known
behind it that it does not declare. For each kind of statement this comes down
to its values and to its block.
-/
import StoryLang.Proofs.Script.Known

namespace StoryLang.Script

open Value (Emits EmitsAll)

variable {globals : Bool} {known known' : String → Prop} {n : String} {t : Tree} {rule : Rule}
  {own line : Option Coord} {ps ts : List Tree} {r r' : Record}

/-- The statement, its block and its branches read only known names. What is known behind it
was known before, or it is declared by it. Of an import it is not said what it reads. -/
structure Stands (globals : Bool) (known known' : String → Prop) (t : Tree) : Prop where
  record : ∀ r, Describes r t → (r.method ≠ .importMethod → r.Reads known) ∧
    Scoped globals (r.within globals known) (blockOf t.parts) ∧ ∀ n, known' n → known n ∨ n ∈ r.declared
  branches : Scoped globals known (branchesOf t)

theorem Stands.cons (h : Stands globals known known' t) (hts : Scoped globals known' ts) :
    Scoped globals known (t :: ts) :=
  .cons (fun r hr => (h.record r hr).1) (fun r hr => (h.record r hr).2.1) h.branches
    fun r hr => hts.mono (h.record r hr).2.2

theorem scoped_noBranches (h : continuations rule = []) :
    Scoped globals known (branchesOf (.node rule own ps)) := by
  rw [branchesOf_eq_nil h]
  exact .nil

/-- Where a record is and where it leads to does not count. -/
theorem Stands.of (h : ∀ line r, recordOf line t = .ok r → (r.method ≠ .importMethod → r.Reads known) ∧
      Scoped globals (r.within globals known) (blockOf t.parts) ∧ ∀ n, known' n → known n ∨ n ∈ r.declared)
    (hb : Scoped globals known (branchesOf t)) : Stands globals known known' t := by
  refine ⟨?_, hb⟩
  rintro r ⟨line, r₀, hr, hbare⟩
  have h := h line r₀ hr
  have same : ∀ {α : Type} (f : Record → α), (∀ r, f (bareOf r) = f r) → f r = f r₀ :=
    fun f hf => by rw [← hf r, hbare, hf]
  have hpaths := same Record.paths fun _ => rfl
  have hmethod := same Record.method fun _ => rfl
  have hdeclared := same Record.declared fun _ => rfl
  have hwithin := same (Record.within globals known) fun _ => rfl
  rwa [Record.Reads, hpaths, hmethod, hwithin, hdeclared]

/-! ## Records -/

/-- A record that assigns to nothing reads what its arguments read. -/
theorem reads_of_args (ht : r.target = none) (h : ∀ v ∈ r.args, v.Within known) : r.Reads known := by
  intro parts hp
  rw [Record.paths, ht, List.append_nil] at hp
  obtain ⟨v, hv, hp⟩ := Value.mem_pathsAll.1 hp
  exact h v hv parts hp

/-- A record that assigns to a variable as a whole reads what its arguments read. -/
theorem reads_of_name (ht : r.target = some [.name n]) (h : ∀ v ∈ r.args, v.Within known) :
    r.Reads known := by
  intro parts hp
  rw [Record.paths, ht, List.append_nil] at hp
  obtain ⟨v, hv, hp⟩ := Value.mem_pathsAll.1 hp
  exact h v hv parts hp

/-- A record that assigns to a part of a variable reads the variable as well. -/
theorem reads_of_path {parts : List Value} (ht : r.target = some parts)
    (hp : (Value.path parts).Within known) (h : ∀ v ∈ r.args, v.Within known) : r.Reads known := by
  intro path hpath
  rw [Record.paths, ht, List.mem_append] at hpath
  rcases hpath with hpath | hpath
  · obtain ⟨v, hv, hpath⟩ := Value.mem_pathsAll.1 hpath
    exact h v hv path hpath
  · split at hpath
    · rename_i root part rest heq
      obtain rfl := Option.some.inj heq
      exact hp path hpath
    · cases hpath

theorem within_of_known (hm : r.method ≠ .function) (h : known n) : r.within globals known n :=
  .inr ⟨.inr hm, .inl h⟩

theorem within_of_declared (hm : r.method ≠ .function) (h : n ∈ r.declared) :
    r.within globals known n :=
  .inr ⟨.inr hm, .inr h⟩

/-- Nothing that a statement evaluates changes what it assigns to. -/
theorem target_fill (h : fill r t = .ok r') : r'.target = r.target := by
  unfold fill at h
  split at h
  · obtain ⟨_, -, h⟩ := ok_of_bind h
    obtain ⟨_, -, h⟩ := ok_of_bind h
    exact Except.ok.inj h ▸ rfl
  · obtain ⟨_, -, h⟩ := ok_of_bind h
    obtain ⟨_, -, h⟩ := ok_of_bind h
    exact Except.ok.inj h ▸ rfl
  · obtain ⟨_, -, h⟩ := ok_of_bind h
    obtain ⟨_, -, h⟩ := ok_of_bind h
    exact Except.ok.inj h ▸ rfl
  all_goals
    obtain ⟨_, -, h⟩ := ok_of_bind h
    exact Except.ok.inj h ▸ rfl

/-! ## Statements without blocks -/

/-- A statement without a block and without branches whose record only has arguments. -/
theorem stands_args (hb : blockOf ps = []) (hc : continuations rule = [])
    (h : ∀ line r, recordOf line (.node rule own ps) = .ok r →
      r.target = none ∧ ∀ v ∈ r.args, v.Within known)
    (hk : ∀ n, known' n → known n) : Stands globals known known' (.node rule own ps) := by
  refine .of (fun line r hr => ?_) (scoped_noBranches hc)
  obtain ⟨ht, hargs⟩ := h line r hr
  refine ⟨fun _ => reads_of_args ht hargs, ?_, fun n hn => .inl (hk n hn)⟩
  rw [Tree.parts, hb]
  exact .nil

theorem stands_functionCall (hb : blockOf ps = []) (h : Fills known (.node .functionCall own ps))
    (hk : ∀ n, known' n → known n) : Stands globals known known' (.node .functionCall own ps) :=
  stands_args hb rfl (fun line r hr => by
    have hr : fill (.bare .expression line) (.node .functionCall own ps) = .ok r := hr
    exact ⟨target_fill hr, h _ r hr⟩) hk

theorem stands_expressionStatement (hb : blockOf ps = [])
    (h : Emits known (Value.ofTree (.node .expressionStatement own ps)))
    (hk : ∀ n, known' n → known n) :
    Stands globals known known' (.node .expressionStatement own ps) := by
  refine stands_args hb rfl (fun line r hr => ?_) hk
  obtain ⟨v, hv, hr⟩ := ok_of_bind hr
  obtain rfl := Except.ok.inj hr
  exact ⟨rfl, List.forall_mem_singleton.2 (h v hv)⟩

/-- A `return` or a `throw`. -/
theorem stands_ending (hr : rule = .returnStatement ∨ rule = .throwStatement) (hb : blockOf ps = [])
    (h : EmitsAll known (Value.ofFirst 1 ps)) (hk : ∀ n, known' n → known n) :
    Stands globals known known' (.node rule own ps) := by
  rcases hr with rfl | rfl
  all_goals
    refine stands_args hb rfl (fun line r hr => ?_) hk
    obtain ⟨vs, hvs, hr⟩ := ok_of_bind hr
    obtain rfl := Except.ok.inj hr
    exact ⟨rfl, h vs hvs⟩

/-- An import reads what it may, and declares its name. -/
theorem stands_importStatement (hb : blockOf ps = [])
    (hk : ∀ n, known' n → known n ∨ nameIn? ps = some n) :
    Stands globals known known' (.node .importStatement own ps) := by
  refine .of (fun line r hr => ?_) (scoped_noBranches rfl)
  unfold recordOf at hr
  dsimp only [Tree.rule?, Tree.parts] at hr
  split at hr
  · rename_i path name _ hname
    obtain ⟨v, hv, hr⟩ := ok_of_bind hr
    obtain rfl := Except.ok.inj hr
    refine ⟨fun hm => absurd rfl hm, ?_, fun n hn => (hk n hn).imp_right fun h => ?_⟩
    · rw [Tree.parts, hb]
      exact .nil
    · rw [h] at hname
      obtain rfl := Option.some.inj hname
      exact List.mem_singleton.2 rfl
  · cases hr

/-- An assignment to a variable as a whole declares it. -/
theorem stands_declaring {root sign : Token} {v : Tree} (hv : v.isNode = true) (hb : v.isA .block = false)
    (h : Fills known v) (hk : ∀ n, known' n → known n ∨ n = root.literal) :
    Stands globals known known'
      (.node .assignment own [.node .path line [.token root], .token sign, v]) := by
  refine .of (fun line r hr => ?_) (scoped_noBranches rfl)
  have hr : fill { Record.bare .expression line with target := some [.name root.literal] } v = .ok r := by
    cases v with
    | token u => cases hv
    | node vr vl vps => exact hr
  have ht := target_fill hr
  refine ⟨fun _ => reads_of_name ht (h _ r hr), ?_, fun n hn => (hk n hn).imp_right ?_⟩
  · simp only [blockOf, Tree.parts, List.find?_cons, hb]
    exact .nil
  · rintro rfl
    simp [Record.declared, ht]

/-- An assignment to a part of a variable. -/
theorem stands_assigning {sign : Token} {v : Tree} (hv : v.isNode = true) (hb : v.isA .block = false)
    (h : Fills known v) (hp : Emits known (Value.ofTree (.node .path line ps)))
    (hk : ∀ n, known' n → known n) :
    Stands globals known known' (.node .assignment own [.node .path line ps, .token sign, v]) := by
  refine .of (fun line r hr => ?_) (scoped_noBranches rfl)
  have hr : (Value.ofPathParts ps >>= fun parts =>
      fill { Record.bare .expression line with target := some parts } v) = .ok r := by
    cases v with
    | token u => cases hv
    | node vr vl vps => exact hr
  obtain ⟨parts, hparts, hr⟩ := ok_of_bind hr
  have hpath : (Value.path parts).Within known := by
    refine hp _ ?_
    simp only [Value.ofTree, hparts]
    rfl
  refine ⟨fun _ => reads_of_path (target_fill hr) hpath (h _ r hr), ?_, fun n hn => .inl (hk n hn)⟩
  simp only [blockOf, Tree.parts, List.find?_cons, hb]
  exact .nil

/-! ## Statements with blocks -/

/-- A call in a list of statements declares its outputs, and its block sees them. -/
theorem stands_call (hc : rule = .serviceCall ∨ rule = .mutation) (h : Fills known (.node rule own ps))
    (hin : Scoped globals (fun n => known n ∨ n ∈ outputNames ps) (blockOf ps))
    (hk : ∀ n, known' n → known n ∨ n ∈ outputNames ps) :
    Stands globals known known' (.node rule own ps) := by
  have hrecord : ∀ line r, recordOf line (.node rule own ps) = .ok r →
      fill (.bare .expression line) (.node rule own ps) = .ok r ∧
        r.method ≠ .function ∧ r.declared = outputNames ps := by
    intro line r hr
    rcases hc with rfl | rfl
    all_goals
      refine ⟨hr, ?_⟩
      obtain ⟨_, -, hr⟩ := ok_of_bind hr
      obtain ⟨_, -, hr⟩ := ok_of_bind hr
      obtain rfl := Except.ok.inj hr
      exact ⟨nofun, rfl⟩
  refine .of (fun line r hr => ?_) ?_
  · obtain ⟨hfill, hm, hd⟩ := hrecord line r hr
    refine ⟨fun _ => reads_of_args (target_fill hfill) (h _ r hfill), hin.mono fun n hn => ?_, by rwa [hd]⟩
    rcases hn with hn | hn
    · exact within_of_known hm hn
    · exact within_of_declared hm (hd ▸ hn)
  · rcases hc with rfl | rfl <;> exact scoped_noBranches rfl

/-- A statement or branch with a condition. -/
theorem stands_conditioned
    (hr : rule = .ifBlock ∨ rule = .elifBlock ∨ rule = .whileBlock)
    (h : ∀ d, Emits known (Value.ofNode d ps)) (hin : Scoped globals known (blockOf ps))
    (hb : Scoped globals known (branchesOf (.node rule own ps))) (hk : ∀ n, known' n → known n) :
    Stands globals known known' (.node rule own ps) := by
  refine .of (fun line r hrecord => ?_) hb
  rcases hr with rfl | rfl | rfl
  all_goals
    obtain ⟨v, hv, hrecord⟩ := ok_of_bind hrecord
    obtain rfl := Except.ok.inj hrecord
    refine ⟨fun _ => reads_of_args rfl (List.forall_mem_singleton.2 (h _ v hv)), ?_, fun n hn => .inl (hk n hn)⟩
    exact hin.mono fun n hn => within_of_known nofun hn

/-- A statement or branch that evaluates nothing. -/
theorem stands_bare
    (hr : rule = .elseBlock ∨ rule = .tryBlock ∨ rule = .finallyBlock ∨ rule = .breakStatement ∨
      rule = .continueStatement)
    (hin : Scoped globals known (blockOf ps))
    (hb : Scoped globals known (branchesOf (.node rule own ps))) (hk : ∀ n, known' n → known n) :
    Stands globals known known' (.node rule own ps) := by
  refine .of (fun line r hrecord => ?_) hb
  rcases hr with rfl | rfl | rfl | rfl | rfl
  all_goals
    obtain rfl := Except.ok.inj hrecord
    exact ⟨fun _ => reads_of_args rfl nofun, hin.mono fun n hn => within_of_known nofun hn,
      fun n hn => .inl (hk n hn)⟩

/-- A handler, whose block sees what is caught. -/
theorem stands_catchBlock
    (hin : Scoped globals (fun n => known n ∨ n ∈ outputNames ps) (blockOf ps))
    (hk : ∀ n, known' n → known n) : Stands globals known known' (.node .catchBlock own ps) := by
  refine .of (fun line r hr => ?_) (scoped_noBranches rfl)
  obtain rfl := Except.ok.inj hr
  refine ⟨fun _ => reads_of_args rfl nofun, hin.mono fun n hn => ?_, fun n hn => .inl (hk n hn)⟩
  exact hn.elim (within_of_known nofun) .inl

theorem stands_foreachBlock (h : ∀ d, Emits known (Value.ofNode d ps))
    (hin : Scoped globals (fun n => known n ∨ n ∈ outputNames ps) (blockOf ps))
    (hk : ∀ n, known' n → known n) : Stands globals known known' (.node .foreachBlock own ps) := by
  refine .of (fun line r hr => ?_) (scoped_noBranches rfl)
  obtain ⟨v, hv, hr⟩ := ok_of_bind hr
  obtain rfl := Except.ok.inj hr
  refine ⟨fun _ => reads_of_args rfl (List.forall_mem_singleton.2 (h _ v hv)), hin.mono fun n hn => ?_,
    fun n hn => .inl (hk n hn)⟩
  exact hn.elim (within_of_known nofun) .inl

theorem stands_whenBlock (h : EmitsAll known (Value.ofArguments ps))
    (hin : Scoped globals (fun n => known n ∨ n ∈ outputNames ps) (blockOf ps))
    (hk : ∀ n, known' n → known n) : Stands globals known known' (.node .whenBlock own ps) := by
  refine .of (fun line r hr => ?_) (scoped_noBranches rfl)
  obtain ⟨target, -, hr⟩ := ok_of_bind hr
  obtain ⟨vs, hvs, hr⟩ := ok_of_bind hr
  obtain rfl := Except.ok.inj hr
  refine ⟨fun _ => reads_of_args rfl (h vs hvs), hin.mono fun n hn => ?_, fun n hn => .inl (hk n hn)⟩
  exact hn.elim (within_of_known nofun) .inl

/-- The parameters of a function are arguments that have types for values. -/
theorem parameters_ofTypes {vs : List Value} (h : ts.mapM parameter = .ok vs) :
    ∀ v ∈ vs, ∃ name types, v = .argument name (Value.ofTypes types) := by
  induction ts generalizing vs with
  | nil => exact Except.ok.inj h ▸ nofun
  | cons t ts ih =>
    rw [List.mapM_cons] at h
    obtain ⟨v, hv, h⟩ := ok_of_bind h
    obtain ⟨rest, hrest, h⟩ := ok_of_bind h
    obtain rfl := Except.ok.inj h
    refine List.forall_mem_cons.2 ⟨?_, ih hrest⟩
    unfold parameter at hv
    split at hv
    · exact ⟨_, _, (Except.ok.inj hv).symm⟩
    · cases hv

/-- A function sees its parameters, and what is around it only with the feature for it. -/
theorem stands_functionBlock (names : List String)
    (hnames : ∀ vs, (ps.filter (·.isA .parameter)).mapM parameter = .ok vs →
      ∀ n ∈ names, ∃ v, .argument n v ∈ vs)
    (hin : Scoped globals (fun n => n ∈ names ∨ globals = true ∧ known n) (blockOf ps))
    (hk : ∀ n, known' n → known n) : Stands globals known known' (.node .functionBlock own ps) := by
  refine .of (fun line r hr => ?_) (scoped_noBranches rfl)
  obtain ⟨name, -, hr⟩ := ok_of_bind hr
  obtain ⟨vs, hvs, hr⟩ := ok_of_bind hr
  obtain rfl := Except.ok.inj hr
  have hvs : (ps.filter (·.isA .parameter)).mapM parameter = .ok vs := hvs
  refine ⟨fun _ => reads_of_args rfl fun v hv => ?_, hin.mono fun n hn => ?_, fun n hn => .inl (hk n hn)⟩
  · obtain ⟨name, types, rfl⟩ := parameters_ofTypes hvs v hv
    exact .of_nil (Value.paths_ofTypes types)
  · rcases hn with hn | ⟨hg, hn⟩
    · obtain ⟨v, hv⟩ := hnames vs hvs n hn
      exact .inl (List.mem_filterMap.2 ⟨_, hv, rfl⟩)
    · exact .inr ⟨.inl hg, .inl hn⟩

end StoryLang.Script
