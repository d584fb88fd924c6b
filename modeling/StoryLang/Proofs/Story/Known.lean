/-
The names and the services in the script of a story.

A story is compiled only if checking it reports no error, and then its
statements read only names that are known where they stand. The script has the
statements in their order, each in its block, so that its records tell which
names those are. Only what a file is imported from goes unchecked.

Checking notes the services, and the records are made of the tree that comes of
it. But checking that tree notes the same services, so it can be told from its
statements which they are, and these call what their records call.

A registry is there to check calls, but it also tells which commands answer with
something that is listened to. A variable that holds such an answer takes
commands itself, so with the registry a call of its name stays a call, where
without one it is a mutation. Nothing else of the document depends on it.
-/
import StoryLang.Proofs.Check.Known.Statement
import StoryLang.Proofs.Check.Noted.Statement
import StoryLang.Proofs.Check.Paired.Statement
import StoryLang.Proofs.Script.Called
import StoryLang.Proofs.Story.Outline
import StoryLang.Proofs.Story.Stops

/-! ## What a registry changes -/

namespace StoryLang

/-- The document says of each record what it does. -/
theorem CompiledStory.methods_of_document {c c' : CompiledStory}
    (h : c.document false = c'.document false) :
    (c.script.records.map (·.method)).map Method.name =
      (c'.script.records.map (·.method)).map Method.name := by
  have hscript := (List.cons.inj (Json.obj.inj h)).1
  have hrecords := Json.obj.inj (Prod.mk.inj hscript).2
  have hmethods := congrArg (List.map fun p => p.2.get? "method") hrecords
  have hname : ∀ r : Record, r.toJson.get? "method" = some (.str r.method.name) := by
    intro r
    simp [Record.toJson, Json.get?]
  have hinj : Function.Injective fun name => some (Json.str name) := by
    intro a b hab
    simpa using hab
  apply List.map_injective_iff.2 hinj
  simpa [Function.comp_def, hname] using hmethods

namespace Story

variable {s : Story} {o : Options} {r r' : Option Registry}

/-- With two registries, checking the story takes every call in the same way. -/
def CallsAlike (s : Story) (o : Options) (r r' : Option Registry) : Prop :=
  ∀ f t, s.features o = .ok f → s.tree o true = .ok t → Check.CallsAlike f r r' o.scope t

/-- What two checks that take every call in the same way compile a story to. -/
theorem compile_alike {c c' : CompiledStory} (h : s.CallsAlike o r r')
    (hc : (s.compile { o with registry := r }).compiled = some c)
    (hc' : (s.compile { o with registry := r' }).compiled = some c') : c = c' := by
  obtain ⟨f, ts, t, u, analysis, d, hf, hts, ht, hcheck, hscript, rfl⟩ := compile_stages hc
  obtain ⟨f', ts', t', u', analysis', d', hf', hts', ht', hcheck', hscript', rfl⟩ :=
    compile_stages hc'
  -- The stages before the check do not ask the registry.
  obtain rfl : f = f' := Except.ok.inj (hf.symm.trans hf')
  obtain rfl : ts = ts' := Except.ok.inj (hts.symm.trans hts')
  obtain rfl : t = t' := Except.ok.inj (ht.symm.trans ht')
  replace hf : s.features o = .ok f := hf
  replace hts : (s.scanned (modeOf o f)).tokens = .ok ts := hts
  replace ht : hoistedTreeOf (modeOf o f) ts = .ok t := ht
  have htree : s.tree o true = .ok t := by simp [tree, hf, hts, ht]
  obtain ⟨rfl, hservices⟩ := Check.story_alike (h f t hf htree) hcheck hcheck'
  rw [hservices] at hscript
  obtain rfl : d = d' := Except.ok.inj (hscript.symm.trans hscript')
  rfl

/-- A hub only adds checks to a story, as long as it does not change how a call is
taken: the documents with it and without a registry are the same. -/
theorem compile_sameDocument {h : Hub} (alike : s.CallsAlike o none (some (.hub h)))
    (plain : (s.compile { o with registry := none }).compiled.isSome = true)
    (asked : (s.compile { o with registry := some (.hub h) }).compiled.isSome = true)
    (concise : Bool) :
    (s.compile { o with registry := none }).document concise =
      (s.compile { o with registry := some (.hub h) }).document concise := by
  obtain ⟨c, hc⟩ := Option.isSome_iff_exists.1 plain
  obtain ⟨c', hc'⟩ := Option.isSome_iff_exists.1 asked
  rw [Outcome.document, Outcome.document, hc, hc', compile_alike alike hc hc']

/-- A hub with one command, to whose answers one can listen. -/
def listened : Hub :=
  Hub.empty.insertCommand "s" "c"
    { arguments := .empty, output := none, events := NameMap.empty.insert "e" ⟨.empty, some "int"⟩ }

/-- Listening to a service is compiled to the same document, although the hub tells the
type of what is heard. -/
theorem compile_sameDocument_listening :
    (unnamed "x = s c\nwhen x e as y\n  z = y\n").CallsAlike .standard none (some (.hub listened)) ∧
    ((unnamed "x = s c\nwhen x e as y\n  z = y\n").compile
      { Options.standard with registry := none }).compiled.isSome = true ∧
    ((unnamed "x = s c\nwhen x e as y\n  z = y\n").compile
      { Options.standard with registry := some (.hub listened) }).compiled.isSome = true ∧
    ((unnamed "x = s c\nwhen x e as y\n  z = y\n").compile
      { Options.standard with registry := none }).document false =
      ((unnamed "x = s c\nwhen x e as y\n  z = y\n").compile
        { Options.standard with registry := some (.hub listened) }).document false := by
  have alike : (unnamed "x = s c\nwhen x e as y\n  z = y\n").CallsAlike .standard none
      (some (.hub listened)) := by
    intro f t _ ht
    have hfirst : (((unnamed "x = s c\nwhen x e as y\n  z = y\n").tree .standard true).toOption.all
        Tree.callsFirst) = true := by
      decide +kernel
    rw [toOption_eq_some.2 ht] at hfirst
    exact .ofFirst hfirst
  have plain : ((unnamed "x = s c\nwhen x e as y\n  z = y\n").compile
      { Options.standard with registry := none }).compiled.isSome = true := by
    decide +kernel
  have asked : ((unnamed "x = s c\nwhen x e as y\n  z = y\n").compile
      { Options.standard with registry := some (.hub listened) }).compiled.isSome = true := by
    decide +kernel
  exact ⟨alike, plain, asked, compile_sameDocument alike plain asked false⟩

/-- What is done with the answer of a service is a command with the hub and a mutation
without. -/
theorem compile_otherDocument_command :
    ∃ d d', ((unnamed "x = s c\nx foo\n").compile .standard).document false = some d ∧
      ((unnamed "x = s c\nx foo\n").compile
        { Options.standard with registry := some (.hub listened) }).document false = some d' ∧
      d ≠ d' := by
  have hc : ((unnamed "x = s c\nx foo\n").compile .standard).compiled.map (fun c =>
      c.script.records.map (·.method)) = some [.execute, .mutation] := by
    decide +kernel
  have hc' : ((unnamed "x = s c\nx foo\n").compile
      { Options.standard with registry := some (.hub listened) }).compiled.map (fun c =>
      c.script.records.map (·.method)) = some [.execute, .execute] := by
    decide +kernel
  obtain ⟨c, hc, hm⟩ := Option.map_eq_some_iff.1 hc
  obtain ⟨c', hc', hm'⟩ := Option.map_eq_some_iff.1 hc'
  refine ⟨c.document false, c'.document false, by rw [Outcome.document, hc]; rfl,
    by rw [Outcome.document, hc']; rfl, fun h => ?_⟩
  have h := CompiledStory.methods_of_document h
  rw [hm, hm'] at h
  simp [Method.name] at h

end Story

end StoryLang

/-! ## Names -/

namespace StoryLang

namespace Story

variable {s : Story} {o : Options} {c : CompiledStory} {f : Features}

/-- Nothing that is reported about a story that is compiled is an error. -/
theorem compile_clean {ts : List Token} {t t' : Tree} {analysis : Analysis}
    (hf : s.features o = .ok f) (hts : (s.scanned (modeOf o f)).tokens = .ok ts)
    (ht : hoistedTreeOf (modeOf o f) ts = .ok t)
    (hcheck : Check.story f o.registry o.scope t = .ok (t', analysis))
    (h : (s.compile o).compiled = some c) : ∀ d ∈ analysis.diagnostics, d.isError = false := by
  unfold compile at h
  simp only [hf, hts, ht] at h
  unfold check at h
  simp only [hcheck] at h
  unfold finish at h
  split at h
  · cases h
  · rename_i hno
    simp only [Reports.hasErrors_addAll, Bool.not_eq_true, Bool.or_eq_false_iff,
      List.any_eq_false] at hno
    exact fun d hd => by simpa using hno.2 d hd

/-- The plain statements of a compiled story are checked without an error, and the records are
those of the statements that come of this. -/
theorem compile_rows (hg : o.grammarInUse.Accepted) (hf : s.features o = .ok f)
    (hc : (s.compile o).compiled = some c) : ∃ trees trees' analysis,
      (∀ t ∈ trees, Formed Token.Sound o.grammarInUse .plain t ∧ t.isStatement = true) ∧
      Check.story f o.registry o.scope (.of .start trees) = .ok (.of .start trees', analysis) ∧
      (∀ d ∈ analysis.diagnostics, d.isError = false) ∧ c.services = analysis.services ∧
      (∀ t ∈ trees', Formed Token.Sound o.grammarInUse .plain t ∧ t.isStatement = true) ∧
      Script.Written none trees' c.script.records ∧ (c.script.records.map (·.line)).Pairwise (· < ·) := by
  obtain ⟨f', ts, t, t', analysis, c', hf', hts, ht, hcheck, hscript, rfl⟩ := compile_stages hc
  obtain rfl := Except.ok.inj (hf.symm.trans hf')
  have hclean := compile_clean hf hts ht hcheck hc
  have hplain := hoistedTreeOf_gives (m := modeOf o f) hg.keepsLayout hts
  rw [ht] at hplain
  obtain ⟨trees, lines, rfl, hplain⟩ := hplain
  have hchecked := hplain.checked f o.registry o.scope
  rw [hcheck] at hchecked
  obtain ⟨-, trees', rfl, hplain'⟩ := hchecked
  obtain ⟨-, hservices, hwritten, hlines⟩ := hplain'.written hscript
  exact ⟨trees, trees', analysis, hplain.formed, hcheck, hclean, hservices, hplain'.formed, hwritten,
    hlines ▸ hplain'.order⟩

/-- So a story is not compiled if it reads a name that nothing declares. -/
example : ((unnamed "x = y\n").compile .standard).compiled.isNone = true := by decide +kernel

/-- Whatever a record of a compiled story reads, if it does not import a file, is a name that
records in front of it make known where it stands. With `globals` off the body of a function
knows nothing of what is around the function. -/
theorem compile_known (hg : o.grammarInUse.Accepted) (hseed : o.scope = .empty)
    (hf : s.features o = .ok f) (hc : (s.compile o).compiled = some c) {r : Record}
    {front rest : List Record} (hr : c.script.records = front ++ r :: rest)
    (hm : r.method ≠ .importMethod) : r.Reads (Script.Known f.globals front r.parent) := by
  obtain ⟨trees, trees', analysis, hformed, hcheck, hclean, -, -, hwritten, -⟩ := compile_rows hg hf hc
  rw [hseed] at hcheck
  have hscoped := Check.story_scoped (fun t ht => (hformed t ht).1) (fun t ht => (hformed t ht).2)
    hcheck hclean
  -- the records are written as the statements stand
  have hreading : Script.Reading f.globals [] c.script.records :=
    hwritten.reading hscoped fun n hn => hn.elim
  rw [hr] at hreading
  simpa using hreading.at hm

/-- A part of a variable is assigned in a loop: its record reads the variable of the story and
that of the loop. -/
theorem compile_known_loop : Grammar.builtIn.Accepted ∧ ∃ c q₁ q₂ r,
    ((unnamed "x = [1]\nforeach x as i\n  x[i] = i\n").compile .standard).compiled = some c ∧
    c.script.records = [q₁, q₂] ++ r :: [] ∧
    r.paths.map List.length = [1, 2, 1] ∧ r.parent = some q₂.line ∧ r.method ≠ .importMethod ∧
    r.Reads (Script.Known false [q₁, q₂] r.parent) := by
  have hf : (unnamed "x = [1]\nforeach x as i\n  x[i] = i\n").features .standard = .ok .off := by
    decide +kernel
  have hc : ((unnamed "x = [1]\nforeach x as i\n  x[i] = i\n").compile .standard).compiled.map (fun c =>
      c.script.records.map fun r => (r.paths.map List.length, r.line, r.parent, r.method)) =
      some [([], ⟨1, 0⟩, none, .set), ([1], ⟨2, 0⟩, none, .forMethod),
        ([1, 2, 1], ⟨3, 0⟩, some ⟨2, 0⟩, .set)] := by
    decide +kernel
  obtain ⟨c, hc, hrecords⟩ := Option.map_eq_some_iff.1 hc
  obtain ⟨q₁, rest, hrs, -, hrest⟩ := List.map_eq_cons_iff.1 hrecords
  obtain ⟨q₂, rest, rfl, hq, hrest⟩ := List.map_eq_cons_iff.1 hrest
  obtain ⟨r, rest, rfl, hr, hrest⟩ := List.map_eq_cons_iff.1 hrest
  obtain rfl := List.map_eq_nil_iff.1 hrest
  simp only [Prod.mk.injEq] at hq hr
  obtain ⟨-, hline, -⟩ := hq
  obtain ⟨hpaths, -, hparent, hmethod⟩ := hr
  have hm : r.method ≠ .importMethod := by rw [hmethod]; decide
  exact ⟨.builtIn, c, q₁, q₂, r, hc, hrs, hpaths, by rw [hparent, hline], hm,
    compile_known (o := .standard) (f := .off) .builtIn rfl hf hc hrs hm⟩

/-- The name of a file to import may have a piece of code that reads a name that nothing declares. -/
theorem compile_known_import : ∃ c r parts,
    ((unnamed "import \"\x7bx\x7d\" as y\n").compile .standard).compiled = some c ∧
    Options.standard.scope = Scope.empty ∧ c.script.records = [r] ∧ parts ∈ r.paths ∧
    ¬ Value.Rooted (Script.Known false [] r.parent) parts := by
  have hc : ((unnamed "import \"\x7bx\x7d\" as y\n").compile .standard).compiled.map (fun c =>
      c.script.records.map fun r => (r.paths.map List.length, r.parent)) = some [([1], none)] := by
    decide +kernel
  obtain ⟨c, hc, hrecords⟩ := Option.map_eq_some_iff.1 hc
  obtain ⟨r, rest, hrs, hr, hrest⟩ := List.map_eq_cons_iff.1 hrecords
  obtain rfl := List.map_eq_nil_iff.1 hrest
  obtain ⟨parts, rest, hparts, -⟩ := List.map_eq_cons_iff.1 (Prod.mk.inj hr).1
  refine ⟨c, r, parts, hc, rfl, hrs, by rw [hparts]; exact List.mem_cons_self, ?_⟩
  rintro ⟨n, -, hn⟩
  exact Script.not_known_nil hn

end Story

end StoryLang

/-! ## Services -/

namespace StoryLang.Story

variable {s : Story} {o : Options} {c : CompiledStory} {f : Features}

/-- The services of a compiled story are in the order of their names, each one once. They are what
records call or listen to by a name that is no variable where the record stands: neither one known
to all stories, nor one that records in front of it make known. -/
theorem compile_services (hg : o.grammarInUse.Accepted) (hf : s.features o = .ok f)
    (hc : (s.compile o).compiled = some c) : c.services.Pairwise (· < ·) ∧ ∀ n, n ∈ c.services ↔
      ∃ front r rest, c.script.records = front ++ r :: rest ∧
        (r.method = .execute ∨ r.method = .whenMethod) ∧ r.container = some n ∧
        ¬ ((o.scope.get? n).isSome = true ∨ Script.Known f.globals front r.parent n) := by
  obtain ⟨trees, trees', analysis, hformed, hcheck, hclean, hservices, hformed', hwritten, horder⟩ :=
    compile_rows hg hf hc
  rw [hservices]
  refine ⟨Check.story_ordered hcheck, fun n => ?_⟩
  -- the tree that is written comes to the same services when it is checked
  obtain ⟨-, hagain⟩ := Check.stable_story (fun t ht => (hformed t ht).1) hcheck
  have hused := Check.story_uses (n := n) (fun t ht => (hformed' t ht).1) (fun t ht => (hformed' t ht).2)
    hagain hclean
  have hnested : Script.Nested ([] ++ c.script.records) := hwritten.nested horder
  have hcalls : Script.Uses f.globals (fun n => (o.scope.get? n).isSome = true)
      (fun n => (o.scope.get? n).isSome = true) trees' n ↔
        Script.Calls f.globals (fun n => (o.scope.get? n).isSome = true) [] c.script.records n :=
    hwritten.calls (fun t ht => (hformed' t ht).1) hnested
      fun n => (or_iff_left Script.not_known_nil).symm
  rw [hused, hcalls, Script.calls_iff]
  simp only [Record.called_iff, List.nil_append, and_assoc]

/-- A story that listens to the output of a service: its name is no service, and another service is
called in the block. -/
theorem compile_services_listening : Grammar.builtIn.Accepted ∧ ∃ c,
    ((unnamed "s c as a\nwhen a e as x\n  t d\n").compile .standard).compiled = some c ∧
    c.script.records.map (·.container) = [some "s", some "a", some "t"] ∧ c.services = ["s", "t"] ∧
    c.services.Pairwise (· < ·) ∧ ∀ n, n ∈ c.services ↔
      ∃ front r rest, c.script.records = front ++ r :: rest ∧
        (r.method = .execute ∨ r.method = .whenMethod) ∧ r.container = some n ∧
        ¬ ((Options.standard.scope.get? n).isSome = true ∨ Script.Known false front r.parent n) := by
  have hf : (unnamed "s c as a\nwhen a e as x\n  t d\n").features .standard = .ok .off := by
    decide +kernel
  have hc : ((unnamed "s c as a\nwhen a e as x\n  t d\n").compile .standard).compiled.map (fun c =>
      (c.script.records.map (·.container), c.services)) =
      some ([some "s", some "a", some "t"], ["s", "t"]) := by
    decide +kernel
  obtain ⟨c, hc, hmade⟩ := Option.map_eq_some_iff.1 hc
  obtain ⟨hcontainers, hservices⟩ := Prod.mk.inj hmade
  exact ⟨.builtIn, c, hc, hcontainers, hservices, compile_services (f := .off) .builtIn hf hc⟩

end StoryLang.Story
