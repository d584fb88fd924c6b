/-
Stories whose lines end in a carriage return and a newline.

Such a story is compiled to what it is compiled to with newlines alone, with
the same reports. Only if reading stops at the end of a line, where more has
to come, the report is one column further, since it counts the carriage return
that it does not show.
-/
import StoryLang.Proofs.Story.Stops
import StoryLang.Proofs.Tree.Returns

namespace StoryLang

open Text (withReturns)

/-! ## Lines -/

namespace Script

variable {source source' : String}

theorem add_source (h : sourceOf source' = sourceOf source) (s : Script) (r : Record) :
    add source' s r = add source s r := by
  rw [add, h, add]

mutual

/-- A script is made with nothing of the text but its lines. -/
theorem ofStatement_source (h : sourceOf source' = sourceOf source) : ∀ (t : Tree) (place : Place)
    (s : Script), ofStatement source' place s t = ofStatement source place s t
  | .token _, _, _ => rfl
  | .node rule own ps, place, s => by
    have hbody := ofBody_source h ps
    have hothers := ofContinuations_source h ps
    simp only [ofStatement, add_source h, hbody, hothers]

theorem ofStatements_source (h : sourceOf source' = sourceOf source) : ∀ (ts : List Tree)
    (place : Place) (s : Script), ofStatements source' place s ts = ofStatements source place s ts
  | [], _, _ => rfl
  | .token _ :: ts, place, s => ofStatements_source h ts place s
  | .node rule own ps :: ts, place, s => by
    have hfirst := ofStatement_source h (.node rule own ps)
    have hothers := ofStatements_source h ts
    simp only [ofStatements, hfirst, hothers]

theorem ofBody_source (h : sourceOf source' = sourceOf source) : ∀ (ts : List Tree) (place : Place)
    (s : Script), ofBody source' place s ts = ofBody source place s ts
  | [], _, _ => rfl
  | .token _ :: ts, place, s => ofBody_source h ts place s
  | .node rule own ps :: ts, place, s => by
    have hblock := ofStatements_source h ps place s
    have hothers := ofBody_source h ts place s
    cases rule <;> first | exact hblock | exact hothers

theorem ofContinuations_source (h : sourceOf source' = sourceOf source) : ∀ (ts : List Tree)
    (rules : List Rule) (place : Place) (s : Script),
    ofContinuations source' rules place s ts = ofContinuations source rules place s ts
  | [], _, _, _ => rfl
  | .token _ :: ts, rules, place, s => ofContinuations_source h ts rules place s
  | .node rule own ps :: ts, rules, place, s => by
    have hbody := ofBody_source h ps
    have hothers := ofContinuations_source h ts
    simp only [ofContinuations, add_source h, hbody, hothers]

end

end Script

theorem CompiledStory.ofTree_source {source source' : String}
    (h : ∀ line, Diagnostic.lineOf? source' line = Diagnostic.lineOf? source line) (t : Tree)
    (services : List String) : ofTree source' t services = ofTree source t services := by
  have hlines : Script.sourceOf source' = Script.sourceOf source := by
    funext line
    simp only [Script.sourceOf, h]
  simp only [ofTree, Script.ofTree, Script.ofStatements_source hlines]

namespace Reports

/-- The same reports, about texts with the same lines. -/
structure Alike (r r' : Reports) : Prop where
  story : r'.story = r.story
  line? : ∀ line, r'.line? line = r.line? line
  reversed : r'.reversed = r.reversed

variable {r r' : Reports}

namespace Alike

theorem attach (h : r.Alike r') (d : Diagnostic) : r'.attach d = r.attach d := by
  simp only [Reports.attach, h.story, h.line?]

theorem add (h : r.Alike r') (d : Diagnostic) : (r.add d).Alike (r'.add d) where
  story := h.story
  line? := h.line?
  reversed := by simp only [Reports.add, h.attach, h.reversed]

theorem addAll (h : r.Alike r') (ds : List Diagnostic) : (r.addAll ds).Alike (r'.addAll ds) := by
  induction ds generalizing r r' with
  | nil => exact h
  | cons d ds ih => exact ih (h.add d)

theorem outcome (h : r.Alike r') (tree : Option Tree) (compiled : Option CompiledStory) :
    r'.outcome tree compiled = r.outcome tree compiled := by
  simp only [Reports.outcome, toList, h.story, h.reversed]

end Alike

theorem position_attach (r : Reports) (d : Diagnostic) : (r.attach d).position = d.position := by
  unfold attach
  dsimp only
  split <;> rfl

theorem diagnostics_add (r : Reports) (d : Diagnostic) (tree : Option Tree)
    (compiled : Option CompiledStory) :
    ((r.add d).outcome tree compiled).diagnostics = r.toList ++ [r.attach d] := by
  simp [Reports.outcome, toList, Reports.add]

/-- A report about another column shows the same line. -/
theorem attach_further {d : Diagnostic} {p : Position} (hp : d.position = some p) :
    r.attach (d.placed p.further) = (r.attach d).placed p.further := by
  have hline : r.line? p.further.line = r.line? p.line := rfl
  unfold attach
  simp only [Diagnostic.placed, Diagnostic.inStory, hp, Option.bind_some, hline]
  cases r.line? p.line <;> rfl

end Reports

namespace Diagnostic

variable {d : Diagnostic} {p : Position} {text : List Char}

theorem returned_inLine (h : ∀ p, d.position = some p → ¬ p.EndsLine text) : d.returned text = d := by
  unfold returned
  cases hp : d.position with
  | none =>
    rw [Option.map_none, ← hp]
  | some p =>
    rw [Option.map_some, Position.returned, if_neg (h p hp), ← hp]

theorem returned_lineEnd (hp : d.position = some p) (h : p.EndsLine text) :
    d.returned text = d.placed p.further := by
  unfold returned
  rw [hp, Option.map_some, Position.returned, if_pos h]
  rfl

end Diagnostic

namespace Story

variable {s : Story} {o : Options} {f : Features} {r r' : Reports}

/-- The story with a carriage return in front of every newline. -/
def returned (s : Story) : Story := { s with source := String.ofList (withReturns s.source.toList) }

theorem features_returned (hr : '\r' ∉ s.source.toList) : s.returned.features o = s.features o := by
  have hlines : Text.lines ((withReturns s.source.toList).dropWhile (· = Text.byteOrderMark)) =
      Text.lines (s.source.toList.dropWhile (· = Text.byteOrderMark)) := by
    rw [Text.dropWhile_withReturns (by decide) (by decide), Text.lines_withReturns]
    exact fun h => hr (List.dropWhile_subset _ h)
  simp only [features, returned, Features.applyHeader, String.toList_ofList, hlines]

/-- The lines of both texts are shown alike. -/
theorem alike_returned (hr : '\r' ∉ s.source.toList) :
    (Reports.start s.name s.source).Alike (.start s.returned.name s.returned.source) where
  story := rfl
  line? line := by
    cases line with
    | zero => rfl
    | succ n => simp only [Reports.line?, Reports.start, returned, String.toList_ofList, Text.lines_withReturns hr]
  reversed := rfl

theorem check_returned (hr : '\r' ∉ s.source.toList) (h : r.Alike r') (t : Tree) :
    s.returned.check o f r' t = s.check o f r t := by
  have hlines : ∀ line, Diagnostic.lineOf? s.returned.source line = Diagnostic.lineOf? s.source line :=
    Diagnostic.lineOf?_withReturns hr
  have hscript := CompiledStory.ofTree_source hlines
  unfold check
  cases Check.story f o.registry o.scope t with
  | error fault => exact (h.add _).outcome _ _
  | ok out =>
    have hall := h.addAll out.2.diagnostics
    have herrors : (r'.addAll out.2.diagnostics).hasErrors = (r.addAll out.2.diagnostics).hasErrors := by
      simp only [Reports.hasErrors, hall.reversed]
    dsimp only
    unfold finish
    rw [herrors, hscript]
    split
    · exact hall.outcome _ _
    · split
      · exact (hall.add _).outcome _ _
      · exact hall.outcome _ _

/-- Reading the story stops at the end of a line. -/
def StopsAtLineEnd (s : Story) (o : Options) : Prop :=
  ∃ d p, s.tree o false = .error d ∧ d.position = some p ∧
    p.EndsLine (Text.dropMark s.source.toList)

theorem position_attach (s : Story) (d : Diagnostic) : (s.attach d).position = d.position := by
  unfold attach Diagnostic.withSource
  split <;> rfl

theorem stopsAtLineEnd_iff {d : Diagnostic} (h : s.tree o false = .error (s.attach d)) :
    s.StopsAtLineEnd o ↔ ∃ p, d.position = some p ∧ p.EndsLine (Text.dropMark s.source.toList) := by
  constructor
  · rintro ⟨e, p, he, hp, hends⟩
    obtain rfl := Except.error.inj (h.symm.trans he)
    exact ⟨p, by rwa [position_attach] at hp, hends⟩
  · rintro ⟨p, hp, hends⟩
    exact ⟨_, p, h, by rwa [position_attach], hends⟩

/-- Where a story stops, it stops with carriage returns for the same reason, at the end of a line
one column further. -/
theorem compile_stopped {d d' : Diagnostic} (htree : s.tree o false = .error (s.attach d))
    (hd' : d' = d.returned (Text.dropMark s.source.toList)) (h : r.Alike r')
    (hout : s.compile o = (r.add d).outcome none none)
    (hout' : s.returned.compile o = (r'.add d').outcome none none) :
    (¬ s.StopsAtLineEnd o → s.returned.compile o = s.compile o) ∧
    (s.StopsAtLineEnd o → ∃ before d p, (s.compile o).diagnostics = before ++ [d] ∧
      d.position = some p ∧ p.EndsLine (Text.dropMark s.source.toList) ∧
      s.returned.compile o =
        { s.compile o with diagnostics := before ++ [d.placed p.further] }) := by
  rw [stopsAtLineEnd_iff htree, hout, hout', (h.add d').outcome, hd']
  constructor
  · intro hno
    rw [Diagnostic.returned_inLine fun p hp hends => hno ⟨p, hp, hends⟩]
  · rintro ⟨p, hp, hends⟩
    refine ⟨r.toList, r.attach d, p, r.diagnostics_add d _ _, ?_, hends, ?_⟩
    · rw [r.position_attach, hp]
    · rw [Diagnostic.returned_lineEnd hp hends, ← Reports.attach_further hp,
        ← r.diagnostics_add _ none none]
      rfl

theorem scanned_returned (s : Story) (m : ScanMode) :
    Scanned.Beside (Text.dropMark s.source.toList) (s.scanned m) (s.returned.scanned m) := by
  unfold scanned returned
  rw [String.toList_ofList]
  exact scan_withReturns m s.source.toList

/-- With a carriage return in front of every newline a story is compiled to the same, and all
reports are the same, too, unless reading the story stops at the end of a line. Then the last
report, which is about that place, is one column further. -/
theorem compile_returned (hg : o.grammarInUse.Accepted) (hr : '\r' ∉ s.source.toList) :
    (¬ s.StopsAtLineEnd o → s.returned.compile o = s.compile o) ∧
    (s.StopsAtLineEnd o → ∃ before d p, (s.compile o).diagnostics = before ++ [d] ∧
      d.position = some p ∧ p.EndsLine (Text.dropMark s.source.toList) ∧
      s.returned.compile o =
        { s.compile o with diagnostics := before ++ [d.placed p.further] }) := by
  have hstart := alike_returned hr
  have hfeatures := features_returned (o := o) hr
  cases hf : s.features o with
  | error d =>
    rw [hf] at hfeatures
    have hnone : d.position = none := by
      unfold Story.features at hf
      split at hf <;> cases hf
      rfl
    refine compile_stopped (d := d) ?_ (Diagnostic.returned_inLine ?_).symm hstart ?_ ?_
    · simp only [tree, hf]
    · simp [hnone]
    · simp only [compile, hf]
    · simp only [compile, hfeatures]
  | ok f =>
    rw [hf] at hfeatures
    have hscan := s.scanned_returned (modeOf o f)
    have hreports := hstart.addAll ((s.scanned (modeOf o f)).hashComments.map hashCommentReport)
    have htokens := hscan.tokens
    generalize hx : (s.scanned (modeOf o f)).tokens = x, hx' : (s.returned.scanned (modeOf o f)).tokens = x'
      at htokens
    cases htokens with
    | @error fault fault' reasons =>
      obtain ⟨rfl, hplace⟩ := reasons
      refine compile_stopped (d := fault'.diagnostic) ?_ (Diagnostic.returned_inLine ?_).symm hstart ?_ ?_
      · simp only [tree, hf, hx]
      · rintro p hp
        obtain rfl := Option.some.inj hp
        exact hplace
      · simp only [compile, hf, hx]
      · simp only [compile, hfeatures, hx']
    | @ok ts ts' hbeside =>
      have hread : (scan (modeOf o f) (withReturns s.source.toList)).tokens = .ok ts' := by
        rw [← hx', scanned, returned, String.toList_ofList]
      have htrees := treeOf_returned hg.keepsLayout hx hread hbeside
      rw [← hscan.hashComments] at hreports
      generalize ht : treeOf (modeOf o f) ts = y, ht' : treeOf (modeOf o f) ts' = y' at htrees
      cases htrees with
      | @error fault fault' reasons =>
        subst reasons
        have hfault : hoistedTreeOf (modeOf o f) ts = .error fault := by
          simp only [hoistedTreeOf, ht, Bind.bind, Except.bind]
        have hfault' : hoistedTreeOf (modeOf o f) ts' = .error (fault.returned (Text.dropMark s.source.toList)) := by
          simp only [hoistedTreeOf, ht', Bind.bind, Except.bind]
        refine compile_stopped ?_ (Fault.diagnostic_returned _ fault) hreports ?_ ?_
        · simp only [tree, hf, hx, Bool.false_eq_true, if_false, ht]
        · simp only [compile, hf, hx, hfault, hscan.hashComments]
        · simp only [compile, hfeatures, hx', hfault']
      | @ok t t' same =>
        subst same
        have htree : s.tree o false = .ok t' := by
          simp only [tree, hf, hx, Bool.false_eq_true, if_false, ht]
        have hsame : hoistedTreeOf (modeOf o f) ts' = hoistedTreeOf (modeOf o f) ts := by
          simp only [hoistedTreeOf, ht, ht']
        have hreads : ¬ s.StopsAtLineEnd o := by
          rintro ⟨d, p, hd, -⟩
          cases htree.symm.trans hd
        refine ⟨fun _ => ?_, fun hstops => absurd hstops hreads⟩
        simp only [compile, hf, hfeatures, hx, hx', hsame, ← hscan.hashComments]
        cases hoistedTreeOf (modeOf o f) ts with
        | error fault => exact (hreports.add _).outcome _ _
        | ok t => exact check_returned hr hreports t

/-- A condition with its block is compiled to the same. An assignment without a value is reported
where its line ends, and so one column further. -/
theorem compile_returned_value : Grammar.builtIn.Accepted ∧
    '\r' ∉ (unnamed "if true\n  x = 1\n").source.toList ∧ '\r' ∉ (unnamed "x =\n").source.toList ∧
    ¬ (unnamed "if true\n  x = 1\n").StopsAtLineEnd .standard ∧
    (unnamed "if true\r\n  x = 1\r\n").compile .standard =
      (unnamed "if true\n  x = 1\n").compile .standard ∧
    (unnamed "x =\n").StopsAtLineEnd .standard ∧
    ∃ before d p, ((unnamed "x =\n").compile .standard).diagnostics = before ++ [d] ∧
      d.position = some p ∧ p.EndsLine "x =\n".toList ∧
      (unnamed "x =\r\n").compile .standard =
        { (unnamed "x =\n").compile .standard with diagnostics := before ++ [d.placed p.further] } := by
  have hr : '\r' ∉ (unnamed "if true\n  x = 1\n").source.toList := by decide +kernel
  have hr' : '\r' ∉ (unnamed "x =\n").source.toList := by decide +kernel
  have hstory : (unnamed "if true\n  x = 1\n").returned = unnamed "if true\r\n  x = 1\r\n" := by
    decide +kernel
  have hstory' : (unnamed "x =\n").returned = unnamed "x =\r\n" := by decide +kernel
  have hreads : ¬ (unnamed "if true\n  x = 1\n").StopsAtLineEnd .standard := by
    have htree : ((unnamed "if true\n  x = 1\n").tree .standard false).toOption.isSome = true := by
      decide +kernel
    rintro ⟨d, p, hd, -⟩
    rw [hd] at htree
    cases htree
  have hstops : (unnamed "x =\n").StopsAtLineEnd .standard := by
    have hd : ((unnamed "x =\n").tree .standard false).map (fun _ => ()) =
        .error { (Diagnostic.ofCode .assignmentWithoutValue []).placed ⟨1, 4⟩ with
          sourceLine := some "x =" } := by decide +kernel
    cases htree : (unnamed "x =\n").tree .standard false with
    | ok t => simp [htree, Except.map] at hd
    | error d =>
      obtain rfl : d = _ := by simpa [htree, Except.map] using hd
      exact ⟨_, ⟨1, 4⟩, htree, rfl, by decide +kernel⟩
  have hsame := (compile_returned (o := .standard) .builtIn hr).1 hreads
  have hmoved := (compile_returned (o := .standard) .builtIn hr').2 hstops
  rw [hstory] at hsame
  rw [hstory'] at hmoved
  exact ⟨.builtIn, hr, hr', hreads, hsame, hstops, hmoved⟩

/-- The line is shown without its carriage return, and yet the caret stands as far behind the line as
if it were shown. -/
theorem compile_returned_further :
    (((unnamed "x =\n").compile .standard).diagnostics.map fun d => (d.position, d.excerpt .plain)) =
      [(some ⟨1, 4⟩, "\n\n1|    x =\n         ^")] ∧
    (((unnamed "x =\r\n").compile .standard).diagnostics.map fun d => (d.position, d.excerpt .plain)) =
      [(some ⟨1, 5⟩, "\n\n1|    x =\n          ^")] ∧
    (unnamed "x =\n").returned = unnamed "x =\r\n" ∧
    ((unnamed "x =\r\n").compile .standard).diagnostics ≠
      ((unnamed "x =\n").compile .standard).diagnostics := by
  decide +kernel

end Story

end StoryLang
