/-
Reading a text whose lines end in a carriage return and a newline.

Readers look at the kinds, the words and the lines of tokens. So they go the
same way through the tokens of both texts, and stop at the same token for the
same reason. Only the column of a line's end is another one, and no line's end
is a part of a tree.
-/
import Mathlib.Data.List.Infix
import StoryLang.Proofs.Tree.Together
import StoryLang.Proofs.Story.Plain
import StoryLang.Proofs.Token.ReturnsScan
import StoryLang.Proofs.Tree.Yield

namespace StoryLang

variable {text : List Char}

namespace Position

instance (p : Position) (text : List Char) : Decidable (p.EndsLine text) :=
  decidable_of_iff (∃ front ∈ text.inits,
      (text.drop front.length).head? = some '\n' ∧ p = first.behind front) (by
    constructor
    · rintro ⟨front, hfront, hhead, hp⟩
      obtain ⟨more, rfl⟩ := (List.mem_inits _ _).1 hfront
      obtain ⟨rest, hrest⟩ := List.head?_eq_some_iff.1 hhead
      rw [List.drop_left] at hrest
      exact ⟨front, rest, by rw [hrest], hp⟩
    · rintro ⟨front, rest, rfl, hp⟩
      exact ⟨front, (List.mem_inits _ _).2 ⟨_, rfl⟩, by simp, hp⟩)

/-- The place with a carriage return in front of every newline of the text. -/
def returned (p : Position) (text : List Char) : Position := if p.EndsLine text then p.further else p

@[simp] theorem line_returned (p : Position) (text : List Char) : (p.returned text).line = p.line := by
  unfold returned
  split <;> rfl

end Position

/-- The token with a carriage return in front of every newline of the text. -/
def Token.returned (t : Token) (text : List Char) : Token :=
  { t with position := t.position.returned text }

theorem Token.Beside.eq_returned {t t' : Token} (h : t.Beside text t') : t' = t.returned text := by
  cases h with
  | same inLine => rw [Token.returned, Position.returned, if_neg inLine]
  | lineEnd ends => rw [Token.returned, Position.returned, if_pos ends]

theorem Token.Beside.literal {t t' : Token} (h : t.Beside text t') : t'.literal = t.literal := by
  rw [h.eq_returned]
  rfl

/-- Only a line's end is moved. -/
theorem Token.Beside.eq_of_code {t t' : Token} (h : t.Beside text t') (hc : t.kind.isLayout = false) :
    t' = t := by
  cases h with
  | same => rfl
  | lineEnd => cases hc

/-- The fault with a carriage return in front of every newline of the text. -/
def Fault.returned (text : List Char) : Fault → Fault
  | .inText f => .inText { f with position := f.position.returned text }
  | .inTokens f => .inTokens
    { f with position := f.position.returned text, token := f.token.returned text }
  | f => f

/-- The report with a carriage return in front of every newline of the text. -/
def Diagnostic.returned (text : List Char) (d : Diagnostic) : Diagnostic :=
  { d with position := d.position.map (·.returned text) }

theorem Fault.diagnostic_returned (text : List Char) (f : Fault) :
    (f.returned text).diagnostic = f.diagnostic.returned text := by
  cases f <;> rfl

/-! ## Where reading stops -/

namespace Stuck

variable {s : Stuck}

/-- Stuck at the same token of the text with carriage returns. -/
def returned (s : Stuck) (text : List Char) : Stuck :=
  { s with
    previous := s.previous.map (·.returned text)
    statement := s.statement.map (·.returned text)
    current := s.current.returned text
    next := s.next.map (·.returned text) }

/-- The same report, at the same token of the text with carriage returns. -/
def Report.returned (text : List Char) (r : Report) : Report := (r.1, r.2.returned text)

theorem openBrackets_returned (stack : List Symbol) (ts : List Token) :
    openBrackets stack (ts.map (·.returned text)) = openBrackets stack ts := by
  induction ts generalizing stack with
  | nil => rfl
  | cons t ts ih =>
    rw [List.map_cons]
    unfold openBrackets
    simp only [ih]
    rfl

/-- A report at a token is one at the returned token. -/
theorem map_returned (code : Option Code) (t : Token) :
    (code.map (·, t)).map (Report.returned text) = code.map (·, t.returned text) := by
  rw [Option.map_map]
  rfl

/-- The same condition on a report. -/
theorem ite_returned {c : Prop} [Decidable c] (x : Option Report) :
    (if c then x else none).map (Report.returned text) =
      if c then x.map (Report.returned text) else none := by
  split <;> rfl

theorem reservedWord_returned : (s.returned text).reservedWord =
    s.reservedWord.map (Report.returned text) := by
  obtain ⟨g, previous, statement, current, next, expected⟩ := s
  unfold reservedWord
  simp only [Option.map_or, ite_returned, map_returned]
  rcases statement with _ | ⟨a, _ | ⟨b, rest⟩⟩
  · rfl
  · simp only [ite_returned, map_returned]
    rfl
  · rfl

theorem noValue_returned : (s.returned text).noValue = s.noValue.map (Report.returned text) := by
  unfold noValue
  rw [ite_returned]
  obtain ⟨g, _ | previous, statement, current, next, expected⟩ := s <;> rfl

theorem strayThen_returned : (s.returned text).strayThen = s.strayThen.map (Report.returned text) := by
  unfold strayThen
  rw [ite_returned]
  rfl

theorem trailingComma_returned :
    (s.returned text).trailingComma = s.trailingComma.map (Report.returned text) := by
  obtain ⟨g, _ | previous, statement, current, next, expected⟩ := s
  · rfl
  · unfold trailingComma
    dsimp only [returned, Option.map_some]
    rw [ite_returned]
    rfl

theorem openBracket?_returned : (s.returned text).openBracket? = s.openBracket? :=
  congrArg List.head? (openBrackets_returned [] s.statement)

theorem notClosed_returned : (s.returned text).notClosed = s.notClosed.map (Report.returned text) := by
  have hline : (s.returned text).previous.any (fun p => p.line < (s.returned text).current.line) =
      s.previous.any fun p => p.line < s.current.line := by
    rw [returned, Option.any_map]
    exact congrArg (Option.any · s.previous) (funext fun p =>
      decide_eq_decide.2 (by simp [Token.line, Token.returned]))
  unfold notClosed
  simp only [ite_returned, map_returned, openBracket?_returned, hline]
  rfl

theorem notOpened_returned : (s.returned text).notOpened = s.notOpened.map (Report.returned text) := by
  unfold notOpened
  rw [openBracket?_returned, apply_ite (Option.map (Report.returned text)), ite_returned]
  rfl

theorem strayColon_returned :
    (s.returned text).strayColon = s.strayColon.map (Report.returned text) := by
  unfold strayColon
  rw [ite_returned]
  obtain ⟨g, previous, statement, current, _ | next, expected⟩ := s <;> rfl

theorem noService_returned : (s.returned text).noService = s.noService.map (Report.returned text) := by
  obtain ⟨g, previous, statement, current, next, expected⟩ := s
  rcases statement with _ | ⟨a, _ | ⟨b, rest⟩⟩
  · rfl
  · unfold noService
    dsimp only [returned, List.map_cons, List.map_nil]
    rw [ite_returned]
    rfl
  · rfl

theorem noColon_returned : (s.returned text).noColon = s.noColon.map (Report.returned text) := by
  unfold noColon
  rw [ite_returned]
  obtain ⟨g, _ | previous, statement, current, next, expected⟩ := s <;> rfl

theorem signReport?_returned (t : Token) :
    signReport? (t.returned text) = (signReport? t).map (Report.returned text) := by
  unfold signReport?
  rw [apply_ite (Option.map (Report.returned text)), ite_returned]
  rfl

theorem signInName_returned :
    (s.returned text).signInName = s.signInName.map (Report.returned text) := by
  unfold signInName
  rw [ite_returned]
  have hall : (s.returned text).statement.all inMistakenName = s.statement.all inMistakenName := by
    simp only [returned, List.all_map]
    rfl
  have hsign : (s.returned text).statement.findSome? signReport? =
      (s.statement.findSome? signReport?).map (Report.returned text) := by
    rw [returned, List.findSome?_map, List.map_findSome?]
    exact congrArg (List.findSome? · s.statement) (funext signReport?_returned)
  rw [hall, hsign]
  rfl

theorem first_returned : (s.returned text).first = s.first.returned text := by
  obtain ⟨g, previous, _ | ⟨a, rest⟩, current, next, expected⟩ := s <;> rfl

theorem badImport_returned : (s.returned text).badImport = s.badImport.map (Report.returned text) := by
  unfold badImport
  rw [first_returned, apply_ite (Option.map (Report.returned text))]
  obtain ⟨g, previous, statement, current, next, expected⟩ := s
  rcases statement with _ | ⟨a, _ | ⟨b, _ | ⟨c, rest⟩⟩⟩
  · rfl
  · dsimp only [returned, List.map_cons, List.map_nil]
    rw [apply_ite (Option.map (Report.returned text))]
    rfl
  · dsimp only [returned, List.map_cons, List.map_nil]
    rw [ite_returned]
    rfl
  · rfl

theorem misspelling_returned :
    (s.returned text).misspelling = s.misspelling.map (Report.returned text) := by
  unfold misspelling
  rw [first_returned, apply_ite (Option.map (Report.returned text)), apply_ite (Option.map (Report.returned text)), ite_returned]
  rfl

theorem noOperator_returned :
    (s.returned text).noOperator = s.noOperator.map (Report.returned text) := by
  unfold noOperator
  rw [ite_returned]
  obtain ⟨g, _ | previous, statement, current, next, expected⟩ := s <;> rfl

theorem shape_returned {shape : Stuck → Option Report} (h : shape ∈ shapes) :
    shape (s.returned text) = (shape s).map (Report.returned text) := by
  simp only [shapes, List.mem_cons, List.not_mem_nil, or_false] at h
  rcases h with rfl | rfl | rfl | rfl | rfl | rfl | rfl | rfl | rfl | rfl | rfl | rfl | rfl
  · exact reservedWord_returned
  · exact noValue_returned
  · exact strayThen_returned
  · exact trailingComma_returned
  · exact notClosed_returned
  · exact notOpened_returned
  · exact strayColon_returned
  · exact noService_returned
  · exact noColon_returned
  · exact signInName_returned
  · exact badImport_returned
  · exact misspelling_returned
  · exact noOperator_returned

theorem report?_returned : (s.returned text).report? = s.report?.map (Report.returned text) := by
  unfold report?
  rw [List.map_findSome?]
  have hall : ∀ {fs : List (Stuck → Option Report)}, fs ⊆ shapes →
      fs.findSome? (· (s.returned text)) =
        fs.findSome? (Option.map (Report.returned text) ∘ (· s)) := by
    intro fs hfs
    induction fs with
    | nil => rfl
    | cons f fs ih =>
      have hf : f (s.returned text) = (f s).map (Report.returned text) := shape_returned (hfs (by simp))
      rw [List.findSome?_cons, List.findSome?_cons, hf, ih fun _ hm => hfs (by simp [hm])]
      rfl
  exact hall fun _ => id

theorem fault_returned : Fault.inTokens (s.returned text).fault =
    (Fault.inTokens s.fault).returned text := by
  unfold fault
  rw [report?_returned]
  cases s.report? with
  | none => rfl
  | some r => rfl

end Stuck

namespace Read

variable {g : Grammar} {c c' : Cursor}

theorem eq_map_returned {ts ts' : List Token} (h : List.Forall₂ (Token.Beside text) ts ts') :
    ts' = ts.map (·.returned text) := by
  induction h with
  | nil => rfl
  | cons ht _ ih => rw [List.map_cons, ← ih, ht.eq_returned]

theorem stuck_returned (h : c.Like (Token.Beside text) c') (ks : List TokenKind) :
    c'.stuck g ks = (c.stuck g ks).returned text := by
  unfold Cursor.stuck Cursor.statement
  rw [eq_map_returned h.behind, eq_map_returned h.ahead, h.current.eq_returned, h.started]
  simp [Stuck.returned, List.map_take]

/-- Reading goes the same way through both texts. -/
theorem setting_returned (g : Grammar) (text : List Char) :
    StorySetting (Token.Beside text) (fun f f' => f' = f.returned text) g g where
  tokens := ⟨fun _ _ h => h.kind, fun _ _ h _ => h.literal⟩
  operators := rfl
  castPrecedence := rfl
  reserved := rfl
  typeNames := rfl
  stuck h ks := by rw [stuck_returned h, Stuck.fault_returned]
  refused h code := by
    rw [h.eq_returned]
    rfl
  bounded := rfl

end Read

namespace Story

variable {m : ScanMode} {tokens tokens' : List Token}

/-- The tokens of a text with carriage returns have the tree that those of the text have, or none
for the same reason. -/
theorem treeOf_returned (hg : m.grammar.KeepsLayout) (hs : (scan m text).tokens = .ok tokens)
    (hs' : (scan m (Text.withReturns text)).tokens = .ok tokens')
    (h : List.Forall₂ (Token.Beside (Text.dropMark text)) tokens tokens') :
    EndAlike (fun f f' => f' = f.returned (Text.dropMark text)) (fun t t' => t' = t)
      (treeOf m tokens) (treeOf m tokens') := by
  have htrees := Tree.ofTokens_together (Read.setting_returned m.grammar (Text.dropMark text)) h
    (scan_ok hs).missingEnd (scan_ok hs').missingEnd
  unfold treeOf
  generalize hx : Tree.ofTokens m.grammar tokens = x, Tree.ofTokens m.grammar tokens' = x' at htrees
  cases htrees with
  | error reasons => exact .error reasons
  | @ok t t' hlike =>
    refine .ok (Tree.Like.eq t t' hlike fun u hu u' hu' => ?_)
    obtain ⟨trees, rfl, hd⟩ := Tree.ofTokens_derives hg hx
    exact hu'.eq_of_code (hd.yield_flat hg u (by simpa [Tree.yield] using hu))

end Story

end StoryLang
