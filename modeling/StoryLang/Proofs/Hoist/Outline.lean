/-
The outline of a story that was made plain.

Its stations are those of the story that was read, each behind what was taken
out of it. What is taken out of a station has the line before it and a running
number, and so comes after every station before and ahead of its own.
-/
import StoryLang.Proofs.Hoist.Plain
import StoryLang.Proofs.Tree.Outline

namespace StoryLang.Hoist

variable {g : Grammar} {m : ScanMode} {base : Nat} {cs : List Coord} {before left : List Tree}

/-- Stations with those that were put in front of each. -/
inductive Raised : List Tree → List Tree → Prop where
  | nil : Raised [] []
  | cons {t t' rest rest'} {front : List Tree} {ds : List Coord}
      (headings : front.map Tree.heading = ds.map fun d => (some d, none))
      (bases : ∀ d ∈ ds, d.base = baseOf t ∧ d.isSynthetic = true)
      (order : ds.Pairwise fun c d => c.seq < d.seq) (heading : t'.heading = t.heading)
      (others : Raised rest rest') : Raised (t :: rest) (front ++ t' :: rest')

namespace Raised

variable {ts ts' us us' : List Tree}

theorem lines_of_headings {ds : List Coord} (h : ts.map Tree.heading = ds.map fun d => (some d, none)) :
    ts.map Tree.line? = ds.map some := by
  simpa [Tree.heading, Function.comp_def] using congrArg (List.map Prod.fst) h

/-- A station with nothing put in front. -/
theorem same {t t' : Tree} (heading : t'.heading = t.heading) (h : Raised ts ts') :
    Raised (t :: ts) (t' :: ts') :=
  @cons _ _ _ _ [] [] rfl (by simp) .nil heading h

theorem append (h : Raised ts ts') (h' : Raised us us') : Raised (ts ++ us) (ts' ++ us') := by
  induction h with
  | nil => exact h'
  | cons headings bases order heading _ ih =>
    simpa using Raised.cons headings bases order heading ih

/-- What is put in front listens to nothing. -/
theorem listening (h : Raised ts ts') : (ts'.map Tree.heading).filter (·.2.isSome) =
    (ts.map Tree.heading).filter (·.2.isSome) := by
  induction h with
  | nil => rfl
  | cons headings bases order heading _ ih =>
    rw [List.map_append, List.filter_append, headings, List.map_cons, List.map_cons, heading,
      List.filter_cons, List.filter_cons, ih, List.filter_eq_nil_iff.2 (by simp), List.nil_append]

/-- A coordinate that was not made up is that of a station. -/
theorem own (h : Raised ts ts') {c : Coord} (hs : c.isSynthetic = false) :
    some c ∈ ts'.map Tree.line? → some c ∈ ts.map Tree.line? := by
  induction h with
  | nil => exact id
  | @cons t t' rest rest' front ds headings bases order heading others ih =>
    have hline : t'.line? = t.line? := congrArg Prod.fst heading
    rw [List.map_append, lines_of_headings headings, List.map_cons, List.map_cons, hline]
    intro hc
    rcases List.mem_append.1 hc with hc | hc
    · obtain ⟨d, hd, hdc⟩ := List.mem_map.1 hc
      obtain rfl := Option.some.inj hdc
      rw [(bases d hd).2] at hs
      cases hs
    · rcases List.mem_cons.1 hc with hc | hc
      · exact hc ▸ List.mem_cons_self
      · exact List.mem_cons_of_mem _ (ih hc)

/-- If the lines of the stations increase, so do all coordinates. -/
theorem increasing (h : Raised ts ts') : ∀ ls : List Nat, ts.map Tree.line? = ls.map (some ∘ Coord.ofLine) →
    ls.Pairwise (· < ·) → (∀ l ∈ ls, 1 ≤ l) → ∃ cs : List Coord, ts'.map Tree.line? = cs.map some ∧
      cs.Pairwise (· < ·) ∧ ∀ k, (∀ l ∈ ls, k < l) → ∀ c ∈ cs, Coord.ofLine k < c := by
  induction h with
  | nil => exact fun ls _ _ _ => ⟨[], rfl, .nil, by simp⟩
  | @cons t t' rest rest' front ds headings bases order heading others ih =>
    intro ls hls hlt hpos
    have hline : t'.line? = t.line? := congrArg Prod.fst heading
    cases ls with
    | nil => simp at hls
    | cons l ls =>
      simp only [List.map_cons, List.cons.injEq, Function.comp_apply] at hls
      obtain ⟨hl, hls⟩ := hls
      obtain ⟨hfirst, hlt⟩ := List.pairwise_cons.1 hlt
      simp only [List.forall_mem_cons] at hpos
      obtain ⟨cs, hcs, hinc, hafter⟩ := ih ls hls hlt hpos.2
      have hbase : baseOf t = l - 1 := by simp [baseOf, hl, Coord.isSynthetic, Coord.ofLine]
      -- what is in front lies between the line before and the line of the station
      have hfront : ∀ d ∈ ds, d.base = l - 1 ∧ 0 < d.seq := by
        intro d hd
        obtain ⟨hb, hs⟩ := bases d hd
        refine ⟨hb.trans hbase, Nat.pos_of_ne_zero ?_⟩
        simpa [Coord.isSynthetic] using hs
      have hrest := hafter l hfirst
      have hown : ∀ d ∈ ds, d < Coord.ofLine l := by
        intro d hd
        obtain ⟨hb, -⟩ := hfront d hd
        rw [Coord.lt_iff]
        simp only [Coord.ofLine]
        omega
      refine ⟨ds ++ Coord.ofLine l :: cs, ?_, ?_, ?_⟩
      · simp [lines_of_headings headings, hline, hl, hcs]
      · refine List.pairwise_append.2 ⟨?_, List.pairwise_cons.2 ⟨hrest, hinc⟩, fun d hd c hc => ?_⟩
        · refine order.imp_of_mem fun {c d} hc hd hcd => ?_
          rw [Coord.lt_iff, (hfront c hc).1, (hfront d hd).1]
          exact .inr ⟨rfl, hcd⟩
        · rcases List.mem_cons.1 hc with rfl | hc
          · exact hown d hd
          · exact Coord.lt_trans (hown d hd) (hrest c hc)
      · intro k hk
        simp only [List.forall_mem_cons] at hk
        simp only [List.forall_mem_append, List.forall_mem_cons]
        refine ⟨fun d hd => ?_, ?_, hafter k hk.2⟩
        · obtain ⟨hb, hs⟩ := hfront d hd
          rw [Coord.lt_iff]
          simp only [Coord.ofLine]
          omega
        · exact .inl hk.1

end Raised

/-! ## Stations of plain trees -/

/-- What the outline of a job becomes. -/
def Job.Raises (left : List Tree) : Job → Prop
  | .tree .statement t => ∀ t', left = [t'] →
      Raised (Tree.stationsAll false t.parts) (Tree.stationsAll false t'.parts)
  | .tree _ t => ∀ t', left = [t'] → Raised (Tree.stations false t) (Tree.stations false t')
  | .row ts => Raised (Tree.stationsAll false (ts.map Prod.snd)) (Tree.stationsAll false left)
  | .statements ts => Raised (Tree.stationsAll true ts) (Tree.stationsAll true left)
  | .chain _ _ _ | .pieces _ _ | .code _ => True

theorem Job.raises_statement {t t' : Tree}
    (h : Raised (Tree.stationsAll false t.parts) (Tree.stationsAll false t'.parts)) :
    (Job.tree .statement t).Raises [t'] := by
  rintro _ ⟨⟩
  exact h

theorem Job.raises_inside {role : Role} {t t' : Tree} (hr : role ≠ .statement)
    (h : Raised (Tree.stations false t) (Tree.stations false t')) :
    (Job.tree role t).Raises [t'] := by
  cases role <;> first | exact absurd rfl hr | (rintro _ ⟨⟩; exact h)

theorem Takes.stations (h : Takes Token.Sound g base cs before) : Tree.stationsAll true before = before := by
  obtain ⟨vs, rfl, -, hv⟩ := h
  induction vs with
  | nil => rfl
  | cons v vs ih =>
    simp only [List.forall_mem_cons] at hv
    have hnone : Tree.stations false v.2 = [] := by
      rcases hv.1.value with h | h
      · exact Tree.stations_fits h
      · refine Tree.stations_fits (s := .read) ?_
        cases hv2 : v.2 <;> simp_all [Tree.fits, Tree.isCall, Tree.rule?]
    rw [List.map_cons, Tree.stationsAll_cons, ih hv.2, Tree.stations_listed rfl]
    simp [Coord.assignment, Coord.path, Tree.parts, hnone, Tree.stations_node, Rule.isBranch]

theorem Takes.headings {P : Token → Prop} (h : Takes P g base cs before)
    (hc : cs.Pairwise fun c d => c.base = d.base → c.seq < d.seq)
    (hs : ∀ c ∈ cs, c.isSynthetic = true) :
    ∃ ds : List Coord, before.map Tree.heading = ds.map (fun d => (some d, Option.none)) ∧
      (∀ d ∈ ds, d.base = base ∧ d.isSynthetic = true) ∧ ds.Pairwise fun c d => c.seq < d.seq := by
  obtain ⟨vs, rfl, hsub, hv⟩ := h
  have hb : ∀ d ∈ vs.map (·.1), d.base = base := by
    intro d hd
    obtain ⟨v, hm, rfl⟩ := List.mem_map.1 hd
    exact (hv v hm).base
  refine ⟨vs.map (·.1), ?_, fun d hd => ⟨hb d hd, hs d (hsub.subset hd)⟩, ?_⟩
  · simp [Function.comp_def, Tree.heading, Tree.line?, Tree.ownLine?, Tree.listensTo?, Tree.target?,
      Coord.assignment]
  · exact (hc.sublist hsub).imp_of_mem fun hc hd hlt => hlt ((hb _ hc).trans (hb _ hd).symm)

theorem Takes.lines {P : Token → Prop} (h : Takes P g base cs before)
    (hc : cs.Pairwise fun c d => c.base = d.base → c.seq < d.seq)
    (hs : ∀ c ∈ cs, c.isSynthetic = true) :
    ∃ ds : List Coord, before.map Tree.line? = ds.map some ∧
      (∀ d ∈ ds, d.base = base ∧ d.isSynthetic = true) ∧ ds.Pairwise fun c d => c.seq < d.seq :=
  (h.headings hc hs).imp fun _ h => ⟨Raised.lines_of_headings h.1, h.2⟩

theorem Plain.line? {role : Role} {t t' : Tree} (h : Plain Token.Sound g role t t') (hb : t.isA .block = false)
    (hl : t.ownLine? = none) : t'.line? = t.line? :=
  Tree.line?_of_startLine? (h.turns.ownLine.trans hl.symm) (h.line (fun _ => id) hb)

theorem Turns.noStations {role : Role} {t t' : Tree} (h : Turns role t t')
    (hr : role = .operand ∨ role = .part) (hf : t.fits .read = true) :
    Raised (Tree.stations false t) (Tree.stations false t') := by
  rw [Tree.stations_fits hf, Tree.stations_fits (h.fits hr hf)]
  exact .nil

/-! ## What a `when` listens to -/

theorem Keeps.head {role : Role} {rule : Rule} {t : Tree} {ps : List Tree} {ts : List (Role × Tree)}
    (h : Keeps role rule (t :: ps) ts) : ∃ r ts', ts = (r, t) :: ts' := by
  obtain ⟨p, ts', rfl, rfl, -⟩ := List.map_eq_cons_iff.1 h.parts_eq
  exact ⟨p.1, ts', rfl⟩

/-- A row that starts with a token still does. -/
theorem Hoists.row_token {r : Role} {u : Token} {ts : List (Role × Tree)}
    (h : Hoists m base (.row ((r, .token u) :: ts)) cs before left) :
    ∃ ds before' left', left = .token u :: left' ∧ Hoists m base (.row ts) ds before' left' := by
  cases h with
  | cons first others =>
    cases first with
    | token => exact ⟨_, _, _, rfl, others⟩

theorem Hoists.row_cons {r : Role} {t : Tree} {ts : List (Role × Tree)}
    (h : Hoists m base (.row ((r, t) :: ts)) cs before left) :
    ∃ t' left' ds before', left = t' :: left' ∧ Hoists m base (.tree r t) ds before' [t'] := by
  cases h with
  | cons first others => exact ⟨_, _, _, _, rfl, first⟩

/-- A path stays one, and starts with the name that it started with. -/
theorem Hoists.path_stays {role : Role} {t t' : Tree} (h : Hoists m base (.tree role t) cs before [t'])
    (hf : Formed Token.Sound g .read t) (hp : t.isA .path = true) :
    t'.isA .path = true ∧ t'.firstToken? = t.firstToken? := by
  obtain ⟨line, ps, rfl⟩ := Tree.isA_iff.1 hp
  cases hf with
  | node content _ _ =>
    cases content with
    | path =>
      cases h with
      | keep keeps parts =>
        obtain ⟨r, ts, rfl⟩ := keeps.head
        obtain ⟨ds, before', left, rfl, -⟩ := parts.row_token
        exact ⟨rfl, rfl⟩
      | guarded ht => exact absurd (rule_of_guarded ht) (by simp)
      | out ht => exact absurd (rule_of_out ht).2 (by simp [Rule.isCall])
      | block ht => exact absurd (rule_of_statements ht).2 (by simp)

/-- The target of a `when` stays where it is. -/
theorem Hoists.when_first {line : Option Coord} {word : Token} {target : Tree} {ps : List Tree} {t' : Tree}
    (h : Hoists m base (.tree .statement (.node .whenBlock line (.token word :: target :: ps))) cs before [t'])
    (hf : Formed Token.Sound g .read target) (hp : target.isA .path = true) :
    t'.listensTo? = target.firstToken? := by
  cases h with
  | keep keeps row =>
    obtain ⟨r, ts, rfl⟩ := keeps.head
    obtain ⟨ds, before', left, rfl, others⟩ := row.row_token
    cases ts with
    | nil => simpa using keeps.parts_eq
    | cons p ts =>
      obtain ⟨rfl, -⟩ := List.cons.inj (List.cons.inj keeps.parts_eq).2
      obtain ⟨target', left, ds, before', rfl, first⟩ := others.row_cons
      obtain ⟨hpath, hfirst⟩ := first.path_stays hf hp
      rw [Tree.listensTo?, Tree.target?, List.find?_cons_of_neg (by simp [Tree.isA, Tree.rule?]),
        List.find?_cons_of_pos hpath, Option.bind_some, hfirst]
  | guarded ht => exact absurd (rule_of_guarded ht) (by simp)
  | out ht => exact absurd (rule_of_out ht).2 (by simp [Rule.isCall])
  | block ht => exact absurd (rule_of_statements ht).2 (by simp)

theorem Hoists.listensTo? (hg : m.grammar.KeepsLayout) {t t' : Tree}
    (h : Hoists m base (.tree .statement t) cs before [t'])
    (hf : (Job.tree .statement t).Formed Token.Sound m.grammar) : t'.listensTo? = t.listensTo? := by
  obtain ⟨-, _, hl, hp⟩ := h.made hg (fun _ => id) hf
  obtain rfl := List.singleton_inj.1 hl
  obtain ⟨hformed, hst⟩ := hf
  cases hformed with
  | token u => cases hst
  | @node rule own ps content _ parts =>
    by_cases hr : rule = .whenBlock
    · subst hr
      cases content with
      | whenBlock path | whenAs path =>
        rw [h.when_first (parts _ (by simp)) path]
        rw [Tree.listensTo?, Tree.target?, List.find?_cons_of_neg (by simp [Tree.isA, Tree.rule?]),
          List.find?_cons_of_pos path, Option.bind_some]
    · cases hp.turns with
      | node left =>
        rw [leaves_statement hst, List.mem_singleton] at left
        subst left
        rw [Tree.listensTo?, Tree.listensTo?, Tree.target?_of_rule hr, Tree.target?_of_rule hr]

/-- The outline of a node that stays. -/
theorem raised_node {role : Role} {rule : Rule} {line : Option Coord} {ps ps' : List Tree}
    (hf : Formed Token.Sound g .read (.node rule line ps))
    (hp : Plain Token.Sound g role (.node rule line ps) (.node rule line ps')) (hb : rule ≠ .block)
    (h : Raised (Tree.stationsAll false ps) (Tree.stationsAll false ps')) :
    (Job.tree role (.node rule line ps)).Raises [.node rule line ps'] := by
  by_cases hr : role = .statement
  · subst hr
    exact Job.raises_statement h
  · refine Job.raises_inside hr ?_
    have hline := hp.line? (by simp [Tree.isA, Tree.rule?, hb]) hf.ownLine
    by_cases hbranch : rule.isBranch = true
    · have hwhen : rule ≠ .whenBlock := by
        rintro rfl
        cases hbranch
      have hheading := Tree.heading_eq hline (by
        rw [Tree.listensTo?, Tree.listensTo?, Tree.target?_of_rule hwhen, Tree.target?_of_rule hwhen])
      simpa [Tree.stations_node, hbranch] using Raised.same hheading h
    · simp only [Tree.stations_node, hbranch, hb, Bool.false_or, Bool.false_eq_true, if_false]
      exact .nil

theorem Hoists.raised (hg : m.grammar.KeepsLayout) {job : Job}
    (h : Hoists m base job cs before left) : job.Formed Token.Sound m.grammar →
      (cs.Pairwise fun c d => c.base = d.base → c.seq < d.seq) →
      (∀ c ∈ cs, c.isSynthetic = true) → job.Raises left := by
  induction h with
  | none => exact fun _ _ _ => .nil
  | @cons base role t ts cs ds before before' t' ts' first others ih ih' =>
    intro hf hc hs
    rw [List.pairwise_append] at hc
    rw [List.forall_mem_append] at hs
    have ht := ih hf.first hc.1 hs.1
    have hts := ih' hf.others hc.2.1 hs.2
    have hrole := (hf (role, t) (by simp)).role
    have ht : Raised (Tree.stations false t) (Tree.stations false t') := by
      cases role <;> first | exact absurd rfl hrole | exact ht t' rfl
    simpa [Job.Raises] using ht.append hts
  | @token base role t =>
    intro _ _ _
    cases role <;> (rintro _ ⟨⟩; simpa [Tree.parts] using Raised.nil)
  | @keep base role rule line ps ts cs before ps' keeps parts ih =>
    intro hf hc hs
    obtain ⟨-, _, hl, hp⟩ := (Hoists.keep keeps parts).made hg (fun _ => id) hf
    obtain rfl := List.singleton_inj.1 hl
    have h := ih (hf.keeps keeps) hc hs
    simp only [Job.Raises, keeps.parts_eq] at h
    exact raised_node hf.1 hp (keeps.rule_ne hf.2).1 h
  | @guarded base role rule line ps construct cs ps' ht parts ih =>
    intro hf hc hs
    obtain ⟨-, _, hl, hp⟩ := (Hoists.guarded ht parts).made hg (fun _ => id) hf
    obtain rfl := List.singleton_inj.1 hl
    have h := ih hf.parts hc hs
    simp only [Job.Raises, List.map_map, Function.comp_def, List.map_id'] at h
    refine raised_node hf.1 hp ?_ h
    rcases rule_of_guarded ht with rfl | rfl <;> simp
  | @chain base role line subject fragments cs ds before before' subject' fragments' t ht parts
      links =>
    intro hf _ _
    obtain ⟨-, hp⟩ := parts.made hg (fun _ => id) hf.chain
    obtain ⟨-, _, hl, -, ⟨v, f, rfl, hv⟩, -⟩ := links.made hg (fun _ => id) (hf.links hp)
    obtain rfl := List.singleton_inj.1 hl
    have hleft : Tree.stationsAll false (mutationOf v f).parts = [] := by
      simp [mutationOf, Tree.parts, Tree.stations_fits hv, Tree.stations_node, Rule.isBranch]
    have hread : Tree.stationsAll false (Tree.node .mutation line (subject :: fragments)).parts
        = [] := by
      cases hf.1 with
      | node content own parts =>
        cases content with
        | chain value linked alone each =>
          refine Tree.stationsAll_none _ (List.forall_mem_cons.2 ⟨Tree.stations_fits value, ?_⟩)
          refine List.forall_mem_cons.2 ⟨Tree.stations_other linked ⟨by simp, rfl⟩, fun t ht => ?_⟩
          exact Tree.stations_other (each t ht) ⟨by simp, rfl⟩
    by_cases hr : role = .statement
    · subst hr
      refine Job.raises_statement ?_
      rw [hleft, hread]
      exact .nil
    · refine Job.raises_inside hr ?_
      simpa [mutationOf, Tree.stations_node, Rule.isBranch] using Raised.nil
  | @out base role rule line ps cs seq before value ht whole =>
    intro hf _ _
    obtain ⟨-, _, hl, hp⟩ := (@Hoists.out _ _ _ _ _ _ _ seq _ _ ht whole).made hg (fun _ => id) hf
    obtain rfl := List.singleton_inj.1 hl
    obtain ⟨hr, hc⟩ := rule_of_out ht
    refine Job.raises_inside (by rcases hr with rfl | rfl <;> simp) ?_
    exact hp.turns.noStations hr (by simp [Tree.fits, Tree.rule?, hc])
  | block ht statements ih =>
    intro hf hc hs
    have h := ih (hf.statements ht) hc hs
    obtain ⟨rfl, rfl⟩ := rule_of_statements ht
    refine Job.raises_inside (by simp) ?_
    simpa [Job.Raises, Tree.stations_node, Rule.isBranch] using h
  | @plainString base role line t ht text =>
    intro _ _ _
    refine Job.raises_inside (by rintro rfl; simp [treatment] at ht) ?_
    rw [Tree.stations_fits (s := .read) rfl]
    exact .nil
  | @string base role line t cs before first rest ht hasCode pieces =>
    intro hf _ _
    obtain ⟨-, _, hl, hp⟩ := (@Hoists.string _ _ _ line _ _ _ _ _ ht hasCode pieces).made hg (fun _ => id) hf
    obtain rfl := List.singleton_inj.1 hl
    refine Job.raises_inside (by rintro rfl; simp [treatment] at ht) ?_
    rw [Tree.stations_fits (s := .plain) rfl, Tree.stations_fits (hp.turns.plain rfl)]
    exact .nil
  | noStatements => exact fun _ _ _ => .nil
  | @statements base t ts cs ds before t' ts' first others ih ih' =>
    intro hf hc hs
    rw [List.pairwise_append] at hc
    rw [List.forall_mem_append] at hs
    obtain ⟨htakes, _, hl, hp⟩ := first.made hg (fun _ => id) hf.statement
    obtain rfl := List.singleton_inj.1 hl
    obtain ⟨ds', hheadings, hbases, horder⟩ := htakes.headings hc.1 hs.1
    have ht := ih hf.statement hc.1 hs.1 t' rfl
    have hts := ih' hf.otherStatements hc.2.1 hs.2
    have hst : t.isStatement = true := hf.statement.2
    have hline := hp.line? (Tree.isStatement_isA hst rfl) hf.statement.1.ownLine
    simp only [Job.Raises, Tree.stationsAll_append, Tree.stationsAll_cons, htakes.stations,
      Tree.stations_listed (Tree.isNode_of_isStatement hst),
      Tree.stations_listed (Tree.isNode_of_isStatement (hp.turns.statement hst)),
      List.cons_append]
    exact .cons hheadings hbases horder (Tree.heading_eq hline (first.listensTo? hg hf.statement))
      (ht.append hts)
  | _ => exact fun _ _ _ => trivial

end StoryLang.Hoist
