/-
What the `when` records of a story listen to.

A record names its target by the name that the target starts with. No stage
changes that name or where the statement is, so that the `when` records of a
compiled story are, one by one and in order, those of the `when` statements
that were read. What comes behind the name is in no part of a record.
-/
import StoryLang.Proofs.Script.Named
import StoryLang.Proofs.Story.Outline

namespace StoryLang

variable {P : Token → Prop} {g : Grammar} {t : Tree}

namespace Tree

/-- The `when` statements of a story, in document order. -/
def whens (t : Tree) : List Tree := (stationsAll true t.parts).filter (·.isA .whenBlock)

end Tree

theorem Tree.forall_mem_stationsAll {p : Tree → Prop} {listed : Bool} {ts : List Tree}
    (h : ∀ t ∈ ts, ∀ u ∈ stations listed t, p u) : ∀ u ∈ stationsAll listed ts, p u := by
  induction ts with
  | nil => simp
  | cons t ts ih =>
    simp only [List.forall_mem_cons] at h
    exact List.forall_mem_append.2 ⟨h.1, ih h.2⟩

theorem Formed.stations {s : Stage} (h : Formed P g s t) :
    ∀ listed, ∀ u ∈ Tree.stations listed t, Formed P g s u := by
  induction h with
  | token u => simp
  | node content own parts ih =>
    intro listed
    rw [Tree.stations_node]
    split
    · exact List.forall_mem_cons.2 ⟨.node content own parts,
        Tree.forall_mem_stationsAll fun p hp => ih p hp false⟩
    · split
      · exact Tree.forall_mem_stationsAll fun p hp => ih p hp true
      · simp

theorem Formed.stationsAll {s : Stage} {ts : List Tree} (h : ∀ t ∈ ts, Formed P g s t) (listed : Bool) :
    ∀ t ∈ Tree.stationsAll listed ts, Formed P g s t :=
  Tree.forall_mem_stationsAll fun t ht => (h t ht).stations listed

/-- A formed `when` listens to a name. -/
theorem Formed.listens {s : Stage} (h : Formed P g s t) (ht : t.isA .whenBlock = true) :
    ∃ root, t.listensTo? = some root ∧ root.kind = .name := by
  obtain ⟨line, ps, rfl⟩ := Tree.isA_iff.1 ht
  cases h with
  | node content own parts =>
    cases content with
    | @whenBlock _ word target event given body path
    | @whenAs _ word target event given names body path =>
      have htarget := parts target (by simp)
      rw [Tree.listensTo?, Tree.target?, List.find?_cons_of_neg (by simp [Tree.isA, Tree.rule?]),
        List.find?_cons_of_pos path, Option.bind_some]
      obtain ⟨own, ps, rfl⟩ := Tree.isA_iff.1 path
      cases htarget with
      | node content own parts =>
        cases content with
        | path named => exact ⟨_, rfl, named⟩

theorem Tree.isSome_listensTo? {s : Stage} (h : Formed P g s t) :
    t.listensTo?.isSome = t.isA .whenBlock := by
  cases ht : t.isA .whenBlock
  · cases t with
    | token u => rfl
    | node r l ps =>
      have hr : r ≠ .whenBlock := by
        rintro rfl
        simp [Tree.isA, Tree.rule?] at ht
      rw [Tree.listensTo?, Tree.target?_of_rule hr]
      rfl
  · obtain ⟨root, hroot, -⟩ := h.listens ht
    rw [hroot]
    rfl

/-- Of formed statements, those that listen are the `when` statements. -/
theorem Tree.headings_of_whens {s : Stage} {ts : List Tree} (h : ∀ t ∈ ts, Formed P g s t) :
    ((stationsAll true ts).map heading).filter (·.2.isSome) =
      ((stationsAll true ts).filter (·.isA .whenBlock)).map heading := by
  rw [List.filter_map]
  refine congrArg (List.map heading) (List.filter_congr fun t ht => ?_)
  exact isSome_listensTo? (Formed.stationsAll h true t ht)

namespace Script

/-- The `when` records of a script, in its order. -/
def whens (s : Script) : List Record := s.records.filter (·.method = .whenMethod)

/-- The record is that of the `when`: it is at its coordinate, and its container
is the name that the target starts with. -/
structure Listens (t : Tree) (r : Record) : Prop where
  line : t.line? = some r.line
  root : ∃ root, t.listensTo? = some root ∧ root.kind = .name ∧ r.container = some root.literal

/-- Only the record of a `when` has its method, and it names what the `when` listens to. -/
theorem Describes.listens {r : Record} (h : Describes r t) (hf : Formed P g .plain t) :
    (r.method = .whenMethod ↔ t.isA .whenBlock = true) ∧
      ∀ root, t.listensTo? = some root → r.container = some root.literal := by
  obtain ⟨line, r₀, hr, hbare⟩ := h
  have hmethod : r.method = r₀.method := congrArg (·.method) hbare
  have hcontainer : r.container = r₀.container := congrArg (·.container) hbare
  rw [hmethod, hcontainer]
  cases t with
  | token u => cases hr
  | node rule own ps =>
    by_cases hrule : rule = .whenBlock
    · subst hrule
      obtain ⟨target, htarget, hr⟩ := ok_of_bind hr
      obtain ⟨_, -, hr⟩ := ok_of_bind hr
      obtain rfl := Except.ok.inj hr
      refine ⟨by simp [Tree.isA, Tree.rule?, Record.bare], fun root hroot => ?_⟩
      have hfind : ps.find? (·.isA .path) = some target := some_of_orDefect htarget
      have hfirst : target.firstToken? = some root := by
        simpa [Tree.listensTo?, Tree.target?, hfind] using hroot
      simp [hfirst]
    · refine ⟨⟨fun hm => absurd ((recordOf_fresh hr).listening hm) hrule, fun hw => ?_⟩, ?_⟩
      · exact absurd (by simpa [Tree.isA, Tree.rule?] using hw) hrule
      · simp [Tree.listensTo?, Tree.target?_of_rule hrule]

theorem blockStations_eq (ps : List Tree) : blockStations ps = Tree.stationsAll true (blockOf ps) := by
  unfold blockStations blockOf
  cases ps.find? (·.isA .block) <;> rfl

/-- A tree that is followed in its row: a statement, or a branch behind one. -/
def Followed (g : Grammar) (listed : Bool) (t : Tree) : Prop :=
  Formed Token.Sound g .plain t ∧
    if listed then t.isStatement = true else t.rule?.any Rule.isBranch = true

theorem Followed.stations {listed : Bool} (h : Followed g listed t) : Tree.stations listed t =
    t :: (Tree.stationsAll true (blockOf t.parts) ++ Tree.stationsAll false (branchesOf t)) := by
  obtain ⟨hf, hr⟩ := h
  cases hf with
  | token u => cases listed <;> cases hr
  | @node rule own ps content hown parts =>
    have hrule : rule.isStatement = true ∨ rule.isBranch = true := by
      cases listed
      · exact .inr hr
      · exact .inl hr
    have hstation : Tree.stations listed (.node rule own ps) =
        .node rule own ps :: Tree.stationsAll false ps := by
      cases listed <;> simp_all [Tree.stations_node, Tree.rule?]
    rw [hstation, owns_content content hrule, blockStations_eq]
    rfl

theorem Followed.block {listed : Bool} (h : Followed g listed t) :
    ∀ p ∈ blockOf t.parts, Followed g true p := by
  obtain ⟨hf, -⟩ := h
  cases hf with
  | token u => simp [blockOf, Tree.parts]
  | @node rule own ps content hown parts =>
    unfold blockOf
    cases hb : (Tree.node rule own ps).parts.find? (·.isA .block) with
    | none => simp
    | some b =>
      have hformed := parts b (List.mem_of_find?_eq_some hb)
      obtain ⟨line, ps, rfl⟩ := Tree.isA_iff.1 (List.find?_some hb)
      cases hformed with
      | node content own parts =>
        cases content with
        | block each => exact fun p hp => ⟨parts p hp, each p hp⟩

theorem Followed.branches {listed : Bool} (h : Followed g listed t) :
    ∀ p ∈ branchesOf t, Followed g false p := by
  obtain ⟨hf, -⟩ := h
  cases hf with
  | token u => simp [branchesOf]
  | node content own parts =>
    intro p hp
    obtain ⟨hp, hone⟩ := List.mem_filter.1 hp
    cases p with
    | token u => simp [isOneOf, Tree.isA, Tree.rule?] at hone
    | node rule line ps => exact ⟨parts _ hp, by simpa [Tree.rule?] using isBranch_of_isOneOf hone⟩

/-- The records of a row are those of the stations of its trees. -/
theorem Written.stations {parent : Option Coord} {ts : List Tree} {rs : List Record}
    (h : Written parent ts rs) : ∀ listed : Bool, (∀ t ∈ ts, Followed g listed t) →
      List.Forall₂ (fun t r => Describes r t) (Tree.stationsAll listed ts) rs := by
  induction h with
  | nil => exact fun _ _ => .nil
  | @cons parent t r body branches rest ts describes place inside behind others ih ih' ih'' =>
    intro listed hts
    obtain ⟨ht, hts⟩ := List.forall_mem_cons.1 hts
    rw [Tree.stationsAll_cons, ht.stations, List.cons_append, List.append_assoc]
    refine .cons describes ?_
    exact List.rel_append (ih true ht.block)
      (List.rel_append (ih' false ht.branches) (ih'' listed hts))

/-- What a record says of the heading of its statement. -/
structure Heard (heading : Option Coord × Option Token) (r : Record) : Prop where
  line : heading.1 = some r.line
  method : heading.2.isSome = true ↔ decide (r.method = .whenMethod) = true
  root : ∀ root, heading.2 = some root → root.kind = .name ∧ r.container = some root.literal

theorem Describes.heard {r : Record} (h : Describes r t) (hf : Formed P g .plain t)
    (hl : t.line? = some r.line) : Heard t.heading r := by
  obtain ⟨hmethod, hroot⟩ := h.listens hf
  refine ⟨hl, ?_, fun root hr => ⟨?_, hroot root hr⟩⟩
  · rw [decide_eq_true_iff, hmethod, ← Tree.isSome_listensTo? hf]
    rfl
  · have hw : t.isA .whenBlock = true := by
      rw [← Tree.isSome_listensTo? hf]
      exact Option.isSome_iff_exists.2 ⟨root, hr⟩
    obtain ⟨_, hfirst, hname⟩ := hf.listens hw
    exact Option.some.inj (hfirst.symm.trans hr) ▸ hname

theorem heard_each {ts : List Tree} {rs : List Record}
    (h : List.Forall₂ (fun t r => Describes r t) ts rs) (hf : ∀ t ∈ ts, Formed P g .plain t)
    (hl : ts.map Tree.line? = (rs.map (·.line)).map some) :
    List.Forall₂ Heard (ts.map Tree.heading) rs := by
  induction h with
  | nil => exact .nil
  | cons describes _ ih =>
    simp only [List.map_cons, List.cons.injEq, List.forall_mem_cons] at hl hf
    exact .cons (describes.heard hf.1 hl.1) (ih hf.2 hl.2)

theorem Heard.listens {heading : Option Coord × Option Token} {r : Record} (h : Heard heading r)
    (hw : heading.2.isSome = true) : heading.1 = some r.line ∧
      ∃ root, heading.2 = some root ∧ root.kind = .name ∧ r.container = some root.literal := by
  obtain ⟨root, hroot⟩ := Option.isSome_iff_exists.1 hw
  exact ⟨h.line, root, hroot, h.root root hroot⟩

/-- Entries that go together are kept together. -/
theorem forall₂_filter {α β : Type} {R S : α → β → Prop} {p : α → Bool} {q : β → Bool} {as : List α}
    {bs : List β} (h : List.Forall₂ R as bs) (hpq : ∀ a b, R a b → (p a = true ↔ q b = true))
    (hS : ∀ a b, R a b → p a = true → S a b) : List.Forall₂ S (as.filter p) (bs.filter q) := by
  induction h with
  | nil => exact .nil
  | @cons a b as bs hab _ ih =>
    cases hp : p a
    · have hq : ¬ q b = true := by simp [← hpq a b hab, hp]
      simpa [List.filter_cons, hp, hq] using ih
    · have hq : q b = true := (hpq a b hab).1 hp
      simpa [List.filter_cons, hp, hq] using List.Forall₂.cons (hS a b hab hp) ih

end Script

namespace Story

variable {s s' : Story} {o o' : Options} {c c' : CompiledStory}

/-- The `when` records of a compiled story are those of the `when` statements that were read. -/
theorem compile_listens (hg : o.grammarInUse.Accepted) (hc : (s.compile o).compiled = some c) :
    ∃ t, s.tree o false = .ok t ∧ List.Forall₂ Script.Listens t.whens c.script.whens := by
  obtain ⟨f, ts, t, t', analysis, c', hf, hts, ht, hcheck, hscript, rfl⟩ := compile_stages hc
  have hkeeps := hg.keepsLayout
  obtain ⟨read, hread, ht⟩ := ok_of_bind ht
  have hgives := treeOf_gives (m := modeOf o f) hkeeps hts
  rw [hread] at hgives
  obtain ⟨used, trees, rfl, hr, -⟩ := hgives
  obtain ⟨cs, left, i, rfl, hruns, hh⟩ := Hoist.story_does_any (m := modeOf o f) hkeeps
    (fun t ht => ⟨Tree.isNode_of_isStatement (hr.formed t ht).2, (hr.formed t ht).1⟩) ht
  obtain ⟨lines, hplain⟩ := hr.isPlain hkeeps hruns hh
  have hchecked := hplain.checked f o.registry o.scope
  have hretold := @Check.story_retold _ left f o.registry o.scope fun t ht => (hplain.formed t ht).1
  rw [hcheck] at hchecked hretold
  obtain ⟨-, trees', rfl, hplain'⟩ := hchecked
  obtain ⟨-, trees'', htrees, hretold⟩ := hretold
  obtain rfl := (Tree.node.inj htrees).2.2
  obtain ⟨-, -, hwritten, hrecords⟩ := hplain'.written hscript
  have hheard : List.Forall₂ Script.Heard ((Tree.stationsAll true trees').map Tree.heading)
      c'.script.records := by
    refine Script.heard_each (hwritten.stations true hplain'.formed)
      (Formed.stationsAll (fun t ht => (hplain'.formed t ht).1) true) ?_
    rw [hrecords]
    exact hplain'.outline
  -- the headings of the `when` statements are those that were read
  have hheadings : ((Tree.stationsAll true trees').map Tree.heading).filter (·.2.isSome) =
      (Tree.of .start trees).whens.map Tree.heading := by
    rw [Check.Retold.stationsAll_listed hretold fun t ht => (hplain.formed t ht).2,
      (hh.raised hkeeps hr.formed hruns.increasing hruns.synthetic).listening,
      Tree.headings_of_whens fun t ht => (hr.formed t ht).1]
    rfl
  refine ⟨.of .start trees, by simp [tree, hf, hts, hread], ?_⟩
  have hlistens := Script.forall₂_filter hheard (fun _ _ h => h.method) fun _ _ h hw => h.listens hw
  rw [hheadings, List.forall₂_map_left_iff] at hlistens
  exact hlistens.imp fun _ _ h => ⟨h.1, h.2⟩

/-- For any two `when` records, of one story or of two, the containers are the same exactly if the
targets of their statements start with the same name. -/
theorem compile_container (hg : o.grammarInUse.Accepted) (hg' : o'.grammarInUse.Accepted)
    (hc : (s.compile o).compiled = some c) (hc' : (s'.compile o').compiled = some c') :
    ∃ t t', s.tree o false = .ok t ∧ s'.tree o' false = .ok t' ∧
      List.Forall₂ Script.Listens t.whens c.script.whens ∧
      List.Forall₂ Script.Listens t'.whens c'.script.whens ∧
      ∀ w ∈ t.whens, ∀ w' ∈ t'.whens, ∀ r r', Script.Listens w r → Script.Listens w' r' →
        ∃ root root', w.listensTo? = some root ∧ w'.listensTo? = some root' ∧
          (r.container = r'.container ↔ root.kind = root'.kind ∧ root.literal = root'.literal) := by
  obtain ⟨t, ht, h⟩ := compile_listens hg hc
  obtain ⟨t', ht', h'⟩ := compile_listens hg' hc'
  refine ⟨t, t', ht, ht', h, h', fun w _ w' _ r r' hw hw' => ?_⟩
  obtain ⟨root, hroot, hname, hcontainer⟩ := hw.root
  obtain ⟨root', hroot', hname', hcontainer'⟩ := hw'.root
  exact ⟨root, root', hroot, hroot', by simp [hcontainer, hcontainer', hname, hname']⟩

/-- Two `when` blocks on fields of one name. -/
def listeningFields : Story :=
  unnamed "s c as a\n  when a.b e\n    x = 1\n  when a.c e\n    x = 1\n"

theorem listeningFields_compiles :
    (listeningFields.compile .standard).compiled.map (fun c => c.script.whens.map fun r =>
      (r.container, r.command, r.args.length, r.output)) =
      some [(some "a", some "e", 0, []), (some "a", some "e", 0, [])] := by
  decide +kernel

/-- The story with itself: there are two records, with one container. -/
theorem compile_container_fields : Grammar.builtIn.Accepted ∧ ∃ c,
    (listeningFields.compile .standard).compiled = some c ∧
    c.script.whens.map (·.container) = [some "a", some "a"] ∧
    ∃ t t', listeningFields.tree .standard false = .ok t ∧ listeningFields.tree .standard false = .ok t' ∧
      List.Forall₂ Script.Listens t.whens c.script.whens ∧
      List.Forall₂ Script.Listens t'.whens c.script.whens ∧
      ∀ w ∈ t.whens, ∀ w' ∈ t'.whens, ∀ r r', Script.Listens w r → Script.Listens w' r' →
        ∃ root root', w.listensTo? = some root ∧ w'.listensTo? = some root' ∧
          (r.container = r'.container ↔ root.kind = root'.kind ∧ root.literal = root'.literal) := by
  obtain ⟨c, hc, hrecords⟩ := Option.map_eq_some_iff.1 listeningFields_compiles
  have hcontainers := congrArg (List.map Prod.fst) hrecords
  rw [List.map_map] at hcontainers
  exact ⟨.builtIn, c, hc, hcontainers,
    @compile_container _ _ .standard .standard _ _ .builtIn .builtIn hc hc⟩

/-- What is behind the name is lost: two records agree in all but their places, and the targets
of their statements are not the same. -/
theorem compile_container_lost : ∃ c t r r' w w',
    (listeningFields.compile .standard).compiled = some c ∧
    listeningFields.tree .standard false = .ok t ∧
    c.script.whens = [r, r'] ∧ t.whens = [w, w'] ∧
    r.container = r'.container ∧ r.command = r'.command ∧ r.args = r'.args ∧ r.output = r'.output ∧
    (w.target?.map fun target => target.yield.map (·.literal)) = some ["a", ".", "b"] ∧
    (w'.target?.map fun target => target.yield.map (·.literal)) = some ["a", ".", "c"] := by
  obtain ⟨c, hc, hrecords⟩ := Option.map_eq_some_iff.1 listeningFields_compiles
  obtain ⟨r, rest, hrs, hr, hrest⟩ := List.map_eq_cons_iff.1 hrecords
  obtain ⟨r', rest, rfl, hr', hrest⟩ := List.map_eq_cons_iff.1 hrest
  obtain rfl := List.map_eq_nil_iff.1 hrest
  simp only [Prod.mk.injEq, List.length_eq_zero_iff] at hr hr'
  obtain ⟨hcontainer, hcommand, hargs, houtput⟩ := hr
  obtain ⟨hcontainer', hcommand', hargs', houtput'⟩ := hr'
  have htargets : (listeningFields.tree .standard false).toOption.map (fun t => t.whens.map fun w =>
      w.target?.map fun target => target.yield.map (·.literal)) =
      some [some ["a", ".", "b"], some ["a", ".", "c"]] := by
    decide +kernel
  obtain ⟨t, ht, htargets⟩ := Option.map_eq_some_iff.1 htargets
  obtain ⟨w, rest, hws, hw, hrest⟩ := List.map_eq_cons_iff.1 htargets
  obtain ⟨w', rest, rfl, hw', hrest⟩ := List.map_eq_cons_iff.1 hrest
  obtain rfl := List.map_eq_nil_iff.1 hrest
  exact ⟨c, t, r, r', w, w', hc, toOption_eq_some.1 ht, hrs, hws, hcontainer.trans hcontainer'.symm,
    hcommand.trans hcommand'.symm, hargs.trans hargs'.symm, houtput.trans houtput'.symm, hw, hw'⟩

end Story

end StoryLang
