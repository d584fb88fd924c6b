/-
What is given back of a story.

A story is compiled, with its tree and without errors, or there is a first
error to give back in its place. Whatever ends a compilation early is reported
as an error, also a registry that fails, and a script is only given back if
nothing reported on the way is one.

No report is about an internal error: a fault of the first stages is one of the
story, checking stops for nothing but a registry that fails, and a script can be
made of every checked tree whose operators are known. A number out of its range
would be an internal error as well, and there is none: by numbers, every stage
comes to what it comes to without them.
-/
import StoryLang.Proofs.Check.Sight.Statement
import StoryLang.Proofs.Ranged.Check
import StoryLang.Proofs.Ranged.Hoist
import StoryLang.Proofs.Script.Defect
import StoryLang.Proofs.Story.Outline
import StoryLang.Proofs.Story.Stops

namespace StoryLang

namespace Outcome

/-- There is a script with its tree, and no error. -/
def Succeeds (out : Outcome) : Prop :=
  ∃ c t, out.compiled = some c ∧ out.tree = some t ∧ out.errors = [] ∧ out.result = .ok c

/-- There is no script, and the first error is given back in its place. -/
def Fails (out : Outcome) : Prop :=
  out.compiled = none ∧ ∃ d ds, out.errors = d :: ds ∧ out.result = .error d

theorem Succeeds.not_fails {out : Outcome} (h : out.Succeeds) : ¬ out.Fails := by
  obtain ⟨c, t, hc, -⟩ := h
  rintro ⟨hn, -⟩
  rw [hc] at hn
  cases hn

theorem fails_of_errors {out : Outcome} (hc : out.compiled = none) (he : out.errors ≠ []) :
    out.Fails := by
  cases h : out.errors with
  | nil => exact absurd h he
  | cons d ds => exact ⟨hc, d, ds, h, by rw [result, h]⟩

end Outcome

theorem Fault.isError_of_internal {f : Fault} (h : f.isInternal = true) :
    f.diagnostic.isError = true := by
  cases f with
  | internal d => rfl
  | _ => cases h

namespace Reports

variable {r : Reports} {d : Diagnostic} {t : Tree}

/-- What ends a compilation early. -/
theorem fails_add (h : d.isError = true) : ((r.add d).outcome none none).Fails := by
  refine Outcome.fails_of_errors rfl ?_
  rw [errors_add, h]
  simp

theorem errors_eq_nil (tree : Option Tree) (compiled : Option CompiledStory) :
    (r.outcome tree compiled).errors = [] ↔ r.hasErrors = false := by
  simp [Outcome.errors, Outcome.withSeverity, outcome, toList, hasErrors, Diagnostic.isError]

end Reports

namespace Story

variable {s : Story} {o : Options} {f : Features} {reports : Reports} {t t' : Tree}
  {analysis : Analysis} {services : List String} {d : Diagnostic}

theorem finish_splits : (s.finish o reports t services).Succeeds ∨
    (s.finish o reports t services).Fails := by
  unfold finish
  split
  · rename_i h
    refine .inr (Outcome.fails_of_errors rfl fun hnone => ?_)
    rw [Reports.errors_eq_nil] at hnone
    rw [h] at hnone
    cases hnone
  · rename_i h
    split
    · rename_i fault hfault
      have hinternal := CompiledStory.ofTree_onlyDefects s.source t services
      rw [hfault] at hinternal
      exact .inr (Reports.fails_add (Fault.isError_of_internal hinternal))
    · rename_i c _
      have hnone := (Reports.errors_eq_nil (r := reports) (some t)
        (some { c with tree := if o.debugTree then some t else none })).2 (by simpa using h)
      exact .inl ⟨_, t, rfl, rfl, hnone, by rw [Outcome.result, hnone]; rfl⟩

theorem check_splits : (s.check o f reports t).Succeeds ∨ (s.check o f reports t).Fails := by
  unfold check
  split
  · rename_i fault hfault
    obtain rfl := Check.story_fault hfault
    exact .inr (Reports.fails_add rfl)
  · exact finish_splits

/-- Errors that are found by checking leave the checked tree. -/
theorem check_errors (h : Check.story f o.registry o.scope t = .ok (t', analysis))
    (hd : ∃ d ∈ analysis.diagnostics, d.isError = true) :
    (s.check o f reports t).compiled = none ∧ (s.check o f reports t).tree = some t' := by
  have herrors : (reports.addAll analysis.diagnostics).hasErrors = true := by
    rw [Reports.hasErrors_addAll, List.any_eq_true.2 hd, Bool.or_true]
  rw [check, h]
  simp only [finish, herrors, ↓reduceIte]
  exact ⟨rfl, rfl⟩

theorem compile_splits (hg : o.grammarInUse.KeepsLayout) :
    (s.compile o).Succeeds ∨ (s.compile o).Fails := by
  by_cases hstop : ∃ d, s.Stops o d
  · obtain ⟨d, hd⟩ := hstop
    refine .inr (Outcome.fails_of_errors ?_ (by rw [hd.errors hg]; exact List.cons_ne_nil _ _))
    cases hd <;> simp only [compile, *] <;> rfl
  · unfold compile
    dsimp only
    split
    · rename_i d hf
      exact absurd ⟨d, .features hf⟩ hstop
    · rename_i f hf
      split
      · rename_i fault hts
        exact absurd ⟨_, .scan hf hts⟩ hstop
      · rename_i ts hts
        split
        · rename_i fault ht
          exact absurd ⟨_, .read hf hts ht⟩ hstop
        · exact check_splits

/-- What a story stops with before it is checked leaves no tree. -/
theorem Stops.tree (h : s.Stops o d) : (s.compile o).tree = none := by
  cases h <;> simp only [compile, *] <;> rfl

/-- A compilation gives back a script with its tree and without errors, or a first error and no
script, and never both. What stops a story before it is checked is its only error and leaves no
tree; errors that are found by checking leave the checked tree. -/
theorem compile_result (s : Story) (o : Options) (hg : o.grammarInUse.Accepted) :
    ((s.compile o).Succeeds ∧ ¬ (s.compile o).Fails ∨ (s.compile o).Fails ∧ ¬ (s.compile o).Succeeds) ∧
    (∀ d, s.Stops o d → (s.compile o).tree = none ∧ ∃ e, (s.compile o).errors = [e] ∧
      e.code = d.code ∧ e.text = d.text ∧ e.position = d.position) ∧
    ∀ f ts t t' analysis, s.features o = .ok f → (s.scanned (modeOf o f)).tokens = .ok ts →
      hoistedTreeOf (modeOf o f) ts = .ok t →
      Check.story f o.registry o.scope t = .ok (t', analysis) →
      (∃ d ∈ analysis.diagnostics, d.isError = true) →
      (s.compile o).compiled = none ∧ (s.compile o).tree = some t' := by
  refine ⟨?_, fun d hd => ⟨hd.tree, _, hd.errors hg.keepsLayout, ?_⟩, ?_⟩
  · exact (compile_splits hg.keepsLayout).imp (fun h => ⟨h, h.not_fails⟩)
      fun h => ⟨h, fun hs => hs.not_fails h⟩
  · rw [Reports.attach_eq hd.sourceLine]
    exact ⟨rfl, rfl, rfl⟩
  · intro f ts t t' analysis hf hts ht hc hd
    obtain ⟨reports, hcompile⟩ : ∃ reports, s.compile o = s.check o f reports t :=
      ⟨_, by simp only [compile, hf, hts, ht]; rfl⟩
    rw [hcompile]
    exact check_errors hc hd

/-- An unknown variable leaves the checked tree, and a missing value leaves none. -/
theorem compile_result_unknown : Grammar.builtIn.Accepted ∧
    (∃ f ts t t' analysis, (unnamed "x = y\n").features .standard = .ok f ∧
      ((unnamed "x = y\n").scanned (modeOf .standard f)).tokens = .ok ts ∧
      hoistedTreeOf (modeOf .standard f) ts = .ok t ∧
      Check.story f Options.standard.registry Options.standard.scope t = .ok (t', analysis) ∧
      (∃ d ∈ analysis.diagnostics, d.isError = true) ∧
      ((unnamed "x = y\n").compile .standard).compiled = none ∧
      ((unnamed "x = y\n").compile .standard).tree = some t') ∧
    ∃ d, (unnamed "x =\n").Stops .standard d ∧ ((unnamed "x =\n").compile .standard).tree = none := by
  refine ⟨.builtIn, ?_, ?_⟩
  · have h : ((unnamed "x = y\n").features .standard).toOption.bind (fun f =>
        ((unnamed "x = y\n").scanned (modeOf .standard f)).tokens.toOption.bind fun ts =>
          (hoistedTreeOf (modeOf .standard f) ts).toOption.bind fun t =>
            (Check.story f Options.standard.registry Options.standard.scope t).toOption.map fun out =>
              out.2.diagnostics.any (·.isError)) = some true := by
      decide +kernel
    obtain ⟨f, hf, h⟩ := Option.bind_eq_some_iff.1 h
    obtain ⟨ts, hts, h⟩ := Option.bind_eq_some_iff.1 h
    obtain ⟨t, ht, h⟩ := Option.bind_eq_some_iff.1 h
    obtain ⟨⟨t', analysis⟩, hc, hany⟩ := Option.map_eq_some_iff.1 h
    rw [toOption_eq_some] at hf hts ht hc
    have hd := List.any_eq_true.1 hany
    exact ⟨f, ts, t, t', analysis, hf, hts, ht, hc, hd,
      (compile_result _ .standard .builtIn).2.2 f ts t t' analysis hf hts ht hc hd⟩
  · have h : ((unnamed "x =\n").tree .standard true).toOption = none := by decide +kernel
    cases htree : (unnamed "x =\n").tree .standard true with
    | ok t => simp [htree, Except.toOption] at h
    | error d =>
      obtain ⟨d₀, hstop, -⟩ := tree_error htree
      exact ⟨d₀, hstop, ((compile_result _ .standard .builtIn).2.1 d₀ hstop).1⟩

end Story

end StoryLang

/-! ## Defects -/

namespace StoryLang

namespace Reports

variable {r : Reports}

/-- No report is about an internal error. -/
def OfStory (r : Reports) : Prop := ∀ d ∈ r.reversed, d.code ≠ .internal

theorem ofStory_start (story source : String) : (start story source).OfStory := List.forall_mem_nil _

theorem code_attach (r : Reports) (d : Diagnostic) : (r.attach d).code = d.code := by
  unfold attach
  dsimp only
  split <;> rfl

theorem OfStory.add (h : r.OfStory) {d : Diagnostic} (hd : d.code ≠ .internal) :
    (r.add d).OfStory :=
  List.forall_mem_cons.2 ⟨by rwa [code_attach], h⟩

theorem OfStory.addAll (h : r.OfStory) {ds : List Diagnostic}
    (hd : ∀ d ∈ ds, d.code ≠ .internal) : (r.addAll ds).OfStory := by
  induction ds generalizing r with
  | nil => exact h
  | cons d ds ih =>
    simp only [List.forall_mem_cons] at hd
    exact ih (h.add hd.1) hd.2

theorem OfStory.outcome (h : r.OfStory) (tree : Option Tree) (compiled : Option CompiledStory) :
    ∀ d ∈ (r.outcome tree compiled).diagnostics, d.code ≠ .internal :=
  fun d hd => h d (List.mem_reverse.1 hd)

end Reports

namespace Story

variable {s : Story} {o : Options} {f : Features} {g : Grammar} {trees : List Tree}
  {lines : List Coord} {reports : Reports}

theorem finish_ofStory (hg : g.KnowsOperators) (hp : IsPlain g trees lines)
    (hr : reports.OfStory) (services : List String) :
    ∀ d ∈ (s.finish o reports (.of .start trees) services).diagnostics, d.code ≠ .internal := by
  unfold finish
  split
  · exact hr.outcome _ _
  · have hc := hp.compiled s.source services
    split
    · rename_i fault hf
      rw [hf] at hc
      exact absurd hg hc
    · exact hr.outcome _ _

theorem check_ofStory (hg : g.KnowsOperators) (hp : IsPlain g trees lines)
    (hr : reports.OfStory) (hn : o.registry ≠ some .failing) :
    ∀ d ∈ (s.check o f reports (.of .start trees)).diagnostics, d.code ≠ .internal := by
  have hc := hp.checked f o.registry o.scope
  unfold check
  split at hc
  · rename_i t analysis hok
    obtain ⟨hd, trees', rfl, hp'⟩ := hc
    rw [hok]
    exact finish_ofStory hg hp' (hr.addAll hd) _
  · exact absurd hc hn

theorem compile_ofStory (hg : o.grammarInUse.KeepsLayout) (hk : o.grammarInUse.KnowsOperators)
    (hn : o.registry ≠ some .failing) :
    ∀ d ∈ (s.compile o).diagnostics, d.code ≠ .internal := by
  have hstart := Reports.ofStory_start s.name s.source
  unfold compile
  dsimp only
  split
  · rename_i d hd
    refine (hstart.add ?_).outcome _ _
    unfold features at hd
    split at hd <;> cases hd
    nofun
  · rename_i f hf
    split
    · rename_i fault _
      exact (hstart.add (LexFault.ofStory fault).code_ne).outcome _ _
    · rename_i ts hts
      have hcomment : ∀ d ∈ (s.scanned (modeOf o f)).hashComments.map hashCommentReport,
          d.code ≠ .internal := by
        simp [hashCommentReport, Diagnostic.placed, Diagnostic.ofCode]
      have hcomments := hstart.addAll hcomment
      have hh := hoistedTreeOf_gives (m := modeOf o f) hg hts
      split
      · rename_i fault hfault
        rw [hfault] at hh
        exact (hcomments.add hh.code_ne).outcome _ _
      · rename_i t ht
        rw [ht] at hh
        obtain ⟨trees, lines, rfl, hp⟩ := hh
        exact check_ofStory hk hp hcomments hn

/-- Every stage comes to the same by numbers, so none of them leaves its range: no token or
character is looked up beyond the last one, no text is cut outside of it or inside a character, and
nothing is taken from less than it. -/
structure InRange (g : Grammar) : Prop where
  scan : ∀ m text, Ranged.scan m text = some (StoryLang.scan m text)
  tree : ∀ tokens, Ranged.ofTokens g tokens = some (Tree.ofTokens g tokens)
  fragment : ∀ tokens, Ranged.ofFragment g tokens = some (Tree.ofFragment g tokens)
  split : ∀ raw, Ranged.split raw = some (Pieces.split raw)
  code : ∀ single source start,
    Ranged.readCode ⟨g, single⟩ source start = some (Hoist.readCode ⟨g, single⟩ source start)
  distance : ∀ a b, Ranged.distance a b = some (Text.distance a b)
  type : ∀ text, Ranged.ofText? text = some (Ty.ofText? text)
  push : ∀ scopes : Scopes, Ranged.stack scopes.push = .empty :: Ranged.stack scopes
  dropTop : ∀ scopes : Scopes, Ranged.stack scopes.dropTop = Ranged.dropTop (Ranged.stack scopes)
  declare : ∀ (scopes : Scopes) b,
    (scopes.declare b).map Ranged.stack = Ranged.declare b (Ranged.stack scopes)
  topNumber : ∀ scopes : Scopes, Ranged.topNumber (Ranged.stack scopes) = some (scopes.depth - 1)

theorem inRange (hg : g.KeepsLayout) : InRange g where
  scan := Ranged.scan_eq
  tree := Ranged.ofTokens_eq hg
  fragment := Ranged.ofFragment_eq hg
  split := Ranged.split_eq
  code _ := Ranged.readCode_eq hg
  distance := Ranged.distance_eq
  type := Ranged.ofText?_eq
  push := Ranged.stack_push
  dropTop := Ranged.stack_dropTop
  declare := Ranged.stack_declare
  topNumber := Ranged.topNumber_stack

/-- With the built-in grammar no compilation reports an internal error, and no number on the way
leaves its range. -/
theorem compile_noInternal (s : Story) (o : Options) (hg : o.grammar = none)
    (hr : o.registry = none ∨ ∃ hub, o.registry = some (.hub hub)) :
    (∀ d ∈ (s.compile o).diagnostics, d.code ≠ .internal) ∧ InRange o.grammarInUse := by
  have hinUse : o.grammarInUse = .builtIn := by rw [Options.grammarInUse, hg]; rfl
  have hn : o.registry ≠ some .failing := by
    rcases hr with h | ⟨hub, h⟩ <;> simp [h]
  rw [hinUse]
  refine ⟨compile_ofStory ?_ ?_ hn, inRange Grammar.keepsLayout_builtIn⟩
  · rw [hinUse]
    exact Grammar.keepsLayout_builtIn
  · rw [hinUse]
    exact Grammar.knowsOperators_builtIn

/-- A call in a string, which is taken out twice, and an unknown function. -/
theorem compile_noInternal_code :
    Options.standard.grammar = none ∧ Options.standard.registry = none ∧
      (∀ d ∈ ((unnamed "a = \"\x7b[(b c)]\x7d\"\nd()\n").compile .standard).diagnostics,
        d.code ≠ .internal) ∧ InRange Options.standard.grammarInUse :=
  ⟨rfl, rfl, compile_noInternal _ .standard rfl (.inl rfl)⟩

end Story

end StoryLang
