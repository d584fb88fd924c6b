/-
A story that stops is reported alike by all that is made of it.

What a story has no tokens or no tree for is the one error of its compilation.
The line of the story that is shown with it is looked up in two ways, and they
differ at the end of the text only: there a line that no newline ends is no
line for a compilation if it is empty, and keeps its carriage return.
-/
import StoryLang.Proofs.Diagnostic.Caret
import StoryLang.Proofs.Story.Plain

namespace StoryLang

/-! ## The line that is shown -/

namespace Diagnostic

variable {d : Diagnostic} {p : Position} {front : List (List Char)} {last : List Char}

theorem withSource_eq (h : d.sourceLine = none) (source : String) : d.withSource source =
    { d with sourceLine := d.position.bind fun p => lineOf? source p.line } := by
  unfold withSource
  split
  · rename_i line hl
    rw [hl]
  · rename_i hl
    rw [hl, ← h]

theorem lineOf?_last {source : String} (h : Text.splitOn '\n' source.toList = front ++ [last]) :
    lineOf? source (front.length + 1) = some (String.ofList (Text.dropReturn last)) := by
  simp [lineOf?, h]

example : lineOf? "if true\n" 2 = some "" := by decide +kernel

/-- What a report shows of the story is as long as the line, and what is around the line. -/
theorem length_excerpt (hp : d.position = some p) : ∃ around, ∀ l : Option String,
    ({ d with sourceLine := l }.excerpt .plain).length =
      (l.map String.length).elim 0 (· + around + 1) := by
  refine ⟨3 + 2 * ((toString p.line).length + 5) + (p.column - 1), fun l => ?_⟩
  cases l with
  | none => simp [excerpt, hp]
  | some line =>
    simp only [excerpt, hp, shownLine, caretPadding, String.length_append, String.length_ofList,
      List.length_append, List.length_replicate, length_padding, Option.map_some, Option.elim_some,
      Colors.plain]
    rw [show "\n\n".length = 2 from rfl, show "|    ".length = 5 from rfl,
      show "\n".length = 1 from rfl, show "^".length = 1 from rfl, show "".length = 0 from rfl]
    omega

/-- Reports about a place read alike only if the lines they show are of one length. -/
theorem message_ne (hd : d.category ≠ .internal) (hp : d.position = some p) {l l' : Option String}
    (h : l.map String.length ≠ l'.map String.length) :
    { d with sourceLine := l }.message ≠ { d with sourceLine := l' }.message := by
  intro heq
  obtain ⟨around, hlength⟩ := length_excerpt hp
  have hsame : ({ d with sourceLine := l }.excerpt .plain).length =
      ({ d with sourceLine := l' }.excerpt .plain).length := by
    rw [message_eq (d := { d with sourceLine := l }) hd,
      message_eq (d := { d with sourceLine := l' }) hd] at heq
    have hhead : { d with sourceLine := l }.heading .plain =
      { d with sourceLine := l' }.heading .plain := rfl
    have hshort : { d with sourceLine := l }.shortMessage =
      { d with sourceLine := l' }.shortMessage := rfl
    have hlen := congrArg String.length heq
    simp only [String.length_append, hhead, hshort] at hlen
    omega
  rw [hlength, hlength] at hsame
  refine h ?_
  cases l <;> cases l' <;> simp at hsame ⊢
  omega

end Diagnostic

theorem Code.category_ne {c : Code} (h : c ≠ .internal) : c.definition.category ≠ .internal := by
  cases c with
  | internal => exact absurd rfl h
  | _ => decide

namespace Reports

variable {r : Reports} {d : Diagnostic} {front : List (List Char)} {last : List Char}

@[simp] theorem story_start (story source : String) : (start story source).story = story := rfl

@[simp] theorem source_start (story source : String) : (start story source).source = source := rfl

theorem attach_eq (h : d.sourceLine = none) : r.attach d =
    { d.inStory r.story with sourceLine := d.position.bind fun p => r.line? p.line } := by
  unfold attach
  dsimp only
  split
  · rename_i line hl
    exact congrArg (fun l => { d.inStory r.story with sourceLine := l }) hl.symm
  · rename_i hl
    rw [show d.inStory r.story = { d.inStory r.story with sourceLine := none } from by rw [← h]; rfl]
    exact congrArg (fun l => { d.inStory r.story with sourceLine := l }) hl.symm

/-- In front of the last part, and behind it, the same lines are found. -/
theorem line?_front (h : Text.splitOn '\n' r.source.toList = front ++ [last]) {line : Nat}
    (hl : line ≠ front.length + 1) : r.line? line = Diagnostic.lineOf? r.source line := by
  cases line with
  | zero => rfl
  | succ n =>
    simp only [line?, Diagnostic.lineOf?, Text.lines, h, Text.linesOfParts_append]
    rcases Nat.lt_trichotomy n front.length with hn | hn | hn
    · rw [List.getElem?_append_left (by simpa using hn), List.getElem?_append_left hn,
        List.getElem?_map, Option.map_map]
      rfl
    · omega
    · rw [List.getElem?_eq_none (by simp; split <;> simp <;> omega),
        List.getElem?_eq_none (by simp; omega)]
      rfl

theorem line?_last (h : Text.splitOn '\n' r.source.toList = front ++ [last]) :
    r.line? (front.length + 1) = if last.isEmpty then none else some (String.ofList last) := by
  simp only [line?, Text.lines, h, Text.linesOfParts_append]
  rw [List.getElem?_append_right (by simp)]
  split <;> simp

theorem isError_attach (r : Reports) (d : Diagnostic) : (r.attach d).isError = d.isError := by
  unfold attach
  dsimp only
  split <;> rfl

/-- Reports are errors before and after they are added. -/
theorem hasErrors_addAll (r : Reports) (ds : List Diagnostic) :
    (r.addAll ds).hasErrors = (r.hasErrors || ds.any (·.isError)) := by
  induction ds generalizing r with
  | nil => simp [addAll]
  | cons d ds ih =>
    have hadd : (r.add d).hasErrors = (r.hasErrors || d.isError) := by
      simp [add, hasErrors, isError_attach, Bool.or_comm]
    rw [addAll, List.foldl_cons, ← addAll, ih, hadd, List.any_cons, Bool.or_assoc]

/-- One more report is one more error, if it is an error. -/
theorem errors_add (tree : Option Tree) (compiled : Option CompiledStory) :
    ((r.add d).outcome tree compiled).errors = (r.outcome tree compiled).errors ++
      if d.isError then [r.attach d] else [] := by
  have hd : (r.attach d).severity = d.severity := by
    unfold attach
    dsimp only
    split <;> rfl
  simp [Outcome.errors, Outcome.withSeverity, outcome, toList, add, List.filter_cons, hd,
    Diagnostic.isError]

/-- What is no error leaves the errors as they are. -/
theorem errors_addAll {ds : List Diagnostic} (h : ∀ d ∈ ds, d.isError = false)
    (tree : Option Tree) (compiled : Option CompiledStory) :
    ((r.addAll ds).outcome tree compiled).errors = (r.outcome tree compiled).errors := by
  induction ds generalizing r with
  | nil => rfl
  | cons d ds ih =>
    obtain ⟨hd, hds⟩ := List.forall_mem_cons.1 h
    rw [addAll, List.foldl_cons, ← addAll, ih hds, errors_add, hd]
    exact List.append_nil _

theorem attach_addAll (ds : List Diagnostic) : (r.addAll ds).attach d = r.attach d := by
  induction ds generalizing r with
  | nil => rfl
  | cons e ds ih =>
    rw [addAll, List.foldl_cons, ← addAll, ih]
    rfl

end Reports

/-! ## Where a story stops -/

theorem hashCommentReport_isError (p : Position) : (hashCommentReport p).isError = false := rfl

theorem Fault.sourceLine_diagnostic (f : Fault) : f.diagnostic.sourceLine = none := by
  cases f <;> rfl

namespace Story

variable {s : Story} {o : Options} {d : Diagnostic}

/-- What a story that has no tokens or no plain tree stops with, before the story is known. -/
inductive Stops (s : Story) (o : Options) : Diagnostic → Prop where
  | features {d : Diagnostic} (h : s.features o = .error d) : Stops s o d
  | scan {f : Features} {fault : LexFault} (hf : s.features o = .ok f)
      (h : (s.scanned (modeOf o f)).tokens = .error fault) : Stops s o fault.diagnostic
  | read {f : Features} {ts : List Token} {fault : Fault} (hf : s.features o = .ok f)
      (hts : (s.scanned (modeOf o f)).tokens = .ok ts)
      (h : hoistedTreeOf (modeOf o f) ts = .error fault) : Stops s o fault.diagnostic

/-- A story without tokens stops. -/
theorem tokens_error (h : s.tokens o = .error d) : ∃ d₀, s.Stops o d₀ ∧ d = s.attach d₀ := by
  unfold tokens at h
  split at h
  · rename_i d₀ hf
    exact ⟨d₀, .features hf, (Except.error.inj h).symm⟩
  · rename_i f hf
    split at h
    · rename_i fault hts
      exact ⟨fault.diagnostic, .scan hf hts, (Except.error.inj h).symm⟩
    · cases h

/-- So does a story without a tree, plain or as it was read. -/
theorem tree_error {hoisted : Bool} (h : s.tree o hoisted = .error d) :
    ∃ d₀, s.Stops o d₀ ∧ d = s.attach d₀ := by
  unfold tree at h
  split at h
  · rename_i d₀ hf
    exact ⟨d₀, .features hf, (Except.error.inj h).symm⟩
  · rename_i f hf
    dsimp only at h
    split at h
    · rename_i fault hts
      exact ⟨fault.diagnostic, .scan hf hts, (Except.error.inj h).symm⟩
    · rename_i ts hts
      split at h
      · rename_i fault ht
        refine ⟨fault.diagnostic, .read hf hts ?_, (Except.error.inj h).symm⟩
        split at ht
        · exact ht
        · simp [hoistedTreeOf, ht, Bind.bind, Except.bind]
      · cases h

namespace Stops

theorem sourceLine (h : s.Stops o d) : d.sourceLine = none := by
  cases h with
  | features h =>
    unfold Story.features at h
    split at h <;> cases h
    rfl
  | scan => rfl
  | read => exact Fault.sourceLine_diagnostic _

/-- What a story stops with is a fault of the story. -/
theorem isFault (h : s.Stops o d) (hg : o.grammarInUse.KeepsLayout) : d.code.isFault = true := by
  cases h with
  | features h =>
    unfold Story.features at h
    split at h <;> cases h
    rfl
  | scan => exact LexFault.ofStory _
  | @read f ts _ hf hts h =>
    have hgives := hoistedTreeOf_gives (m := modeOf o f) hg hts
    rwa [h] at hgives

/-- It is the one error of the story's compilation. -/
theorem errors (h : s.Stops o d) (hg : o.grammarInUse.KeepsLayout) :
    (s.compile o).errors = [(Reports.start s.name s.source).attach d] := by
  have hd : d.isError = true := decide_eq_true (Code.isFault_iff.1 (h.isFault hg)).2
  unfold compile
  cases h with
  | features hf =>
    simp only [hf, Reports.errors_add, hd]
    rfl
  | scan hf hts =>
    have hd' : (LexFault.diagnostic _).isError = true := hd
    simp only [hf, hts, Reports.errors_add, hd']
    rfl
  | @read f _ _ hf hts ht =>
    simp only [hf, hts, ht]
    have hhash : ∀ e ∈ (s.scanned (modeOf o f)).hashComments.map hashCommentReport, e.isError = false := by
      simp [hashCommentReport_isError]
    rw [Reports.errors_add, Reports.errors_addAll hhash, hd, Reports.attach_addAll]
    rfl

end Stops

/-! ## One fault, one report -/

/-- The report is about the last line of the story, which no newline ends, and nothing is on
that line or a carriage return at its end. -/
def AtRaggedEnd (s : Story) (d : Diagnostic) : Prop :=
  ∃ p front last, d.position = some p ∧ Text.splitOn '\n' s.source.toList = front ++ [last] ∧
    p.line = front.length + 1 ∧ (last = [] ∨ last.getLast? = some '\r')

/-- Anywhere else a stage alone and the compilation report the same. -/
theorem attach_smooth (hd : d.sourceLine = none) (h : ¬ s.AtRaggedEnd d) :
    (Reports.start s.name s.source).attach d = s.attach d := by
  rw [Reports.attach_eq hd, attach, Diagnostic.withSource_eq (d := d.inStory s.name) hd]
  cases hp : d.position with
  | none => simp [Diagnostic.inStory, hp]
  | some p =>
    obtain ⟨front, last, hparts⟩ := Text.exists_parts s.source.toList
    have hstart : Text.splitOn '\n' (Reports.start s.name s.source).source.toList =
      front ++ [last] := hparts
    have hline : (Reports.start s.name s.source).line? p.line =
        Diagnostic.lineOf? s.source p.line := by
      by_cases hl : p.line = front.length + 1
      · have hlast : ¬ (last = [] ∨ last.getLast? = some '\r') :=
          fun hlast => h ⟨p, front, last, hp, hparts, hl, hlast⟩
        rw [not_or] at hlast
        rw [hl, Reports.line?_last hstart, Diagnostic.lineOf?_last hparts,
          if_neg (by simpa using hlast.1), Text.dropReturn, if_neg hlast.2]
      · exact Reports.line?_front hstart hl
    simp only [Diagnostic.inStory, hp, Option.bind_some, hline, Reports.story_start]

/-- There the lines they show are not even of one length. -/
theorem attach_ragged (hc : d.category ≠ .internal) (hd : d.sourceLine = none)
    (h : s.AtRaggedEnd d) :
    ((Reports.start s.name s.source).attach d).message ≠ (s.attach d).message := by
  obtain ⟨p, front, last, hp, hparts, hl, hlast⟩ := h
  have hstart : Text.splitOn '\n' (Reports.start s.name s.source).source.toList =
    front ++ [last] := hparts
  rw [Reports.attach_eq hd, attach, Diagnostic.withSource_eq (d := d.inStory s.name) hd]
  refine Diagnostic.message_ne (d := d.inStory s.name) (p := p) hc hp ?_
  simp only [Diagnostic.inStory, hp, Option.bind_some, hl, Reports.line?_last hstart,
    Diagnostic.lineOf?_last hparts]
  rcases hlast with rfl | hlast
  · simp
  · obtain ⟨line, rfl⟩ := List.getLast?_eq_some_iff.1 hlast
    simp [Text.dropReturn]

/-- Whatever stops a story before it is checked is reported once and for all: what is given back
in place of its tokens or its tree is the one error of its compilation, in code, text, story and
place. The line that is shown with it is the same, too, unless it is about the ragged end of a
text. -/
theorem compile_stops (hg : o.grammarInUse.Accepted)
    (h : s.tokens o = .error d ∨ ∃ hoisted, s.tree o hoisted = .error d) :
    ∃ e, (s.compile o).errors = [e] ∧
      (e.code = d.code ∧ e.text = d.text ∧ e.story = d.story ∧ e.position = d.position) ∧
      (e = d ↔ ¬ s.AtRaggedEnd d) ∧ (e.message = d.message ↔ ¬ s.AtRaggedEnd d) := by
  obtain ⟨d₀, hstop, rfl⟩ : ∃ d₀, s.Stops o d₀ ∧ d = s.attach d₀ :=
    h.elim tokens_error fun ⟨_, h⟩ => tree_error h
  have hbare := hstop.sourceLine
  have hcode : d₀.category ≠ .internal :=
    Code.category_ne (Code.isFault_iff.1 (hstop.isFault hg.keepsLayout)).1
  have hplace : s.AtRaggedEnd (s.attach d₀) ↔ s.AtRaggedEnd d₀ := by
    rw [attach, Diagnostic.withSource_eq (d := d₀.inStory s.name) hbare]
    rfl
  refine ⟨_, hstop.errors hg.keepsLayout, ?_, ?_, ?_⟩
  · rw [Reports.attach_eq hbare, attach, Diagnostic.withSource_eq (d := d₀.inStory s.name) hbare]
    exact ⟨rfl, rfl, rfl, rfl⟩
  · rw [hplace]
    exact ⟨fun heq hr => attach_ragged hcode hbare hr (congrArg _ heq), attach_smooth hbare⟩
  · rw [hplace]
    exact ⟨fun heq hr => attach_ragged hcode hbare hr heq,
      fun hr => congrArg _ (attach_smooth hbare hr)⟩

/-- An assignment without a value stops the story in its first line, which a newline ends. -/
theorem compile_stops_value : Grammar.builtIn.Accepted ∧ ∃ d,
    (unnamed "x =\ny = 2\n").tree .standard true = .error d ∧
    ((unnamed "x =\ny = 2\n").compile .standard).errors = [d] := by
  have hd : ((unnamed "x =\ny = 2\n").tree .standard true).map (fun _ => ()) =
      .error { (Diagnostic.ofCode .assignmentWithoutValue []).placed ⟨1, 4⟩ with
        sourceLine := some "x =" } := by decide +kernel
  cases htree : (unnamed "x =\ny = 2\n").tree .standard true with
  | ok t => simp [htree, Except.map] at hd
  | error d =>
    obtain rfl : d = _ := by simpa [htree, Except.map] using hd
    obtain ⟨e, he, -, heq, -⟩ := compile_stops (o := .standard) .builtIn (.inr ⟨true, htree⟩)
    refine ⟨.builtIn, _, rfl, ?_⟩
    rw [he, heq.2]
    rintro ⟨p, front, last, hp, hparts, hl, -⟩
    have hlength : (front ++ [last]).length = 3 := by rw [← hparts]; decide +kernel
    cases hp
    have hfirst : 1 = front.length + 1 := hl
    simp only [List.length_append, List.length_cons, List.length_nil] at hlength
    omega

/-- A condition that ends the text has no block: what the tree is missing is shown with the empty
line behind the condition, and the compilation shows no line. -/
theorem compile_stops_lastLine : ∃ e : Diagnostic,
    ((unnamed "if true\n").compile .standard).errors = [e] ∧ e.position = some ⟨2, 1⟩ ∧
    e.sourceLine = none ∧
    ((unnamed "if true\n").tree .standard true).map (fun _ => ()) =
      .error { e with sourceLine := some "" } ∧
    { e with sourceLine := some "" }.message ≠ e.message :=
  ⟨(Diagnostic.ofCode .unexpectedToken ["end of story", "indentation"]).placed ⟨2, 1⟩,
    by decide +kernel, rfl, rfl, by decide +kernel, by decide +kernel⟩

end Story

end StoryLang
