/-
Writing any characters as a string, and what becomes of it.

A quote, a backslash and the braces of a code are written behind a backslash,
and a newline as a backslash and a letter. What is written so stays on its
line, ends at the quote behind it, holds no code, and stands for the
characters it was written for. Three readers look at it one after the other:
the scanner for its end, `Pieces.split` for codes and `Pieces.unescape` for
the characters. So a story that assigns such a string is compiled to one
record with the characters themselves (`Story.compile_escaped`).
-/
import StoryLang.Proofs.Hoist.Again
import StoryLang.Proofs.Hoist.Pieces
import StoryLang.Proofs.Respell.Header
import StoryLang.Story.Basic

namespace StoryLang

namespace Pieces

variable {c : Char} {cs : List Char}

/-- What has a backslash in front of it. -/
def isEscaped (c : Char) : Bool := c = '\\' || c = '"' || c = '{' || c = '}'

/-- How a character is written in a string. -/
def escapeChar (c : Char) : List Char :=
  if isEscaped c then ['\\', c] else if c = '\n' then ['\\', 'n'] else [c]

/-- How characters are written in a string. -/
def escape (cs : List Char) : List Char := cs.flatMap escapeChar

/-- A character is written behind a backslash or as it is. -/
theorem escape_cons (c : Char) (cs : List Char) :
    (∃ d, d ≠ '\n' ∧ escape? d = some c ∧ escape (c :: cs) = '\\' :: d :: escape cs) ∨
      isEscaped c = false ∧ c ≠ '\n' ∧ escape (c :: cs) = c :: escape cs := by
  have hcons : escape (c :: cs) = escapeChar c ++ escape cs := List.flatMap_cons
  rw [hcons, escapeChar]
  split
  · rename_i h
    refine .inl ⟨c, ?_, ?_, rfl⟩
    · rintro rfl
      cases h
    · simp only [isEscaped, Bool.or_eq_true, decide_eq_true_eq, or_assoc] at h
      rcases h with rfl | rfl | rfl | rfl <;> rfl
  · rename_i h
    split
    · rename_i hn
      subst hn
      exact .inl ⟨'n', by decide, rfl, rfl⟩
    · rename_i hn
      exact .inr ⟨by simpa using h, hn, rfl⟩

theorem not_isEscaped (h : isEscaped c = false) : c ≠ '\\' ∧ c ≠ '"' ∧ c ≠ '{' ∧ c ≠ '}' := by
  simpa [isEscaped, and_assoc] using h

theorem escape_onLine (cs : List Char) : '\n' ∉ escape cs := by
  induction cs with
  | nil => exact List.not_mem_nil
  | cons c cs ih =>
    obtain ⟨d, hd, -, he⟩ | ⟨-, hn, he⟩ := escape_cons c cs
    · simp [he, ih, Ne.symm hd]
    · simp [he, ih, Ne.symm hn]

/-- What is written stands for what was to be written. -/
theorem unescape_escape (cs : List Char) : unescape (escape cs) = cs := by
  induction cs with
  | nil => rfl
  | cons c cs ih =>
    obtain ⟨d, -, hd, he⟩ | ⟨hc, -, he⟩ := escape_cons c cs
    · simp [he, unescape, hd, ih]
    · rw [he, unescape_cons (not_isEscaped hc).1, ih]

/-- Braces that are written open no code. -/
theorem hasCode_escape (cs : List Char) : hasCode (escape cs) = false := by
  have h : ∀ n, ∀ p ∈ splitFrom 0 n (escape cs), p.isCode = false := by
    induction cs with
    | nil => simp [escape, splitFrom]
    | cons c cs ih =>
      intro n
      obtain ⟨d, -, -, he⟩ | ⟨hc, -, he⟩ := escape_cons c cs
      · rw [he]
        simpa [splitFrom] using isCode_addText (ih (n + 2))
      · obtain ⟨hslash, -, hopen, -⟩ := not_isEscaped hc
        rw [he, splitFrom.eq_def]
        simpa [hslash, hopen] using isCode_addText (ih (n + 1))
  simpa [hasCode, split] using h 0

end Pieces

/-- What is written ends at the quote behind it. -/
theorem Quotes.body_escape (p : Position) (cs rest : List Char) :
    body '"' .text p (Pieces.escape cs ++ '"' :: rest) = .ok (Pieces.escape cs, rest) := by
  induction cs generalizing p with
  | nil =>
    rw [body.eq_def]
    rfl
  | cons c cs ih =>
    obtain ⟨d, hd, -, he⟩ | ⟨hc, hn, he⟩ := Pieces.escape_cons c cs
    · rw [he, List.cons_append, List.cons_append, body.eq_def]
      simp [hd, ih, Except.map]
    · obtain ⟨hslash, hquote, hopen, -⟩ := Pieces.not_isEscaped hc
      rw [he, List.cons_append, body.eq_def]
      simp [hslash, hquote, hopen, hn, ih, Except.map]

/-! ## The story of a string -/

/-- The built-in grammar without any features. -/
abbrev ScanMode.standard : ScanMode := ⟨.builtIn, false⟩

/-- A variable that a string is assigned to. -/
def assigning (raw : List Char) : List Char := 'a' :: ' ' :: '=' :: ' ' :: '"' :: (raw ++ ['"'])

/-- The tree of such an assignment. -/
def assignmentOf (raw : List Char) : Tree :=
  .of .assignment
    [.of .path [.token ⟨.name, "a", ⟨1, 1⟩⟩], .token ⟨.symbol .assign, "=", ⟨1, 3⟩⟩,
      .of .string [.token ⟨.string, String.ofList raw, ⟨1, 5⟩⟩]]

/-- Its tokens, where the line ends at a place. -/
def tokensOf (raw : List Char) (p : Position) : List Token :=
  [⟨.name, "a", ⟨1, 1⟩⟩, ⟨.symbol .assign, "=", ⟨1, 3⟩⟩, ⟨.string, String.ofList raw, ⟨1, 5⟩⟩,
    ⟨.newline, "\n", p⟩, ⟨.eof, "", p⟩]

namespace Scan.State

variable {m : ScanMode} {n : Nat} {s s' : State}

theorem run_step (h : s.step m (n + 1) = .ok (s', true)) : s.run m (n + 1) = s'.run m n := by
  rw [run, h]

theorem run_last (h : s.step m (n + 1) = .ok (s', false)) :
    s.run m (n + 1) = ⟨.ok s'.finish, s'.hashComments.reverse⟩ := by
  rw [run, h]

/-- Behind the first tokens of the assignment, its text in front. -/
def atRest (rest : List Char) (column : Nat) (before : Char) (tokens : List Token) : State where
  spot := ⟨rest, ⟨1, column⟩, some before⟩
  indents := []
  brackets := 0
  atLineStart := false
  tokens
  hashComments := []

end Scan.State

open Scan.State in
/-- The string is read where it ends, and the text ends with it. -/
theorem scan_assigning {raw : List Char}
    (h : Quotes.body '"' .text ⟨1, 6⟩ (raw ++ ['"']) = .ok (raw, [])) :
    ∃ p, scan .standard (assigning raw) = ⟨.ok (tokensOf raw p), []⟩ := by
  let name : Token := ⟨.name, "a", ⟨1, 1⟩⟩
  let sign : Token := ⟨.symbol .assign, "=", ⟨1, 3⟩⟩
  let quoted := '"' :: (raw ++ ['"'])
  let inside : Spot := ⟨raw ++ ['"'], ⟨1, 6⟩, some '"'⟩
  let last := { atRest quoted 5 ' ' [sign, name] with
    spot := (inside.past raw).next
    tokens := [⟨.string, String.ofList raw, ⟨1, 5⟩⟩, sign, name] }
  have hname (n : Nat) : (start (assigning raw)).step .standard (n + 1) =
      .ok (atRest (' ' :: '=' :: ' ' :: quoted) 2 'a' [name], true) := rfl
  have hsign (n : Nat) : (atRest (' ' :: '=' :: ' ' :: quoted) 2 'a' [name]).step .standard (n + 1) =
      .ok (atRest (' ' :: quoted) 4 '=' [sign, name], true) := rfl
  have hstring (n : Nat) : (atRest (' ' :: quoted) 4 '=' [sign, name]).step .standard (n + 1) =
      .ok (last, true) := by
    have hread : (atRest quoted 5 ' ' [sign, name]).readString '"' = .ok last := by
      unfold readString
      simp only [show (atRest quoted 5 ' ' [sign, name]).spot.next = inside from rfl]
      rw [show Quotes.body '"' .text inside.place inside.rest = .ok (raw, []) from h]
      rfl
    exact congrArg (Except.map (·, true)) hread
  have hrest : last.spot.rest = [] := by
    simp [last, inside, Spot.rest_next, Spot.rest_past]
  have hend (n : Nat) : last.step .standard (n + 1) = .ok (last.moveTo last.spot.pastGap, false) := by
    have hgap : last.spot.pastGap.rest = [] := by
      simp [Spot.pastGap, Spot.pastWhile, Spot.rest_past, hrest]
    rw [step_eq]
    change onLine .standard (last, true) = _
    simp only [onLine, if_true]
    rw [hgap]
  refine ⟨last.spot.pastGap.place, ?_⟩
  have hlen : (assigning raw).length + 1 = raw.length + 3 + 1 + 1 + 1 + 1 := by
    simp [assigning]
  rw [scan, hlen, run_step (hname _), run_step (hsign _), run_step (hstring _), run_last (hend _)]
  rfl

theorem ofTokens_assigning (raw : List Char) (p : Position) :
    Tree.ofTokens .builtIn (tokensOf raw p) = .ok (.of .start [assignmentOf raw]) := rfl

theorem story_assigning {raw : List Char} (h : Pieces.hasCode raw = false) :
    Hoist.story .standard (.of .start [assignmentOf raw]) = .ok (.of .start [assignmentOf raw]) := by
  have hrest : ∀ t ∈ [assignmentOf raw], Hoist.Rests .standard .statement t := by
    refine List.forall_mem_singleton.2 (Hoist.rests_last
      (show Hoist.treatment .statement .assignment = .lastAs .value from rfl) ?_)
    simp only [Hoist.lastAs, List.forall_mem_cons]
    refine ⟨Hoist.rests_parts rfl (by simp [Hoist.rests_token]), Hoist.rests_token, ?_, by simp⟩
    exact Hoist.rests_text (by simpa using h)
  simp only [Tree.of, Hoist.story, Hoist.statements_rest hrest]
  rfl

theorem check_assigning (raw : List Char) :
    ∃ analysis, Check.story .off none .empty (.of .start [assignmentOf raw]) =
        .ok (.of .start [assignmentOf raw], analysis) ∧ analysis.diagnostics = [] ∧
      analysis.services = [] :=
  ⟨_, rfl, rfl, rfl⟩

/-- What the assignment of a string is compiled to, over the line it stands on. -/
def recordOfString (s : String) (line : Option String) : Record :=
  { Record.bare .set ⟨1, 0⟩ with target := some [.name "a"], args := [.string s], source := line }

theorem ofTree_assigning (source : String) (raw : List Char) :
    CompiledStory.ofTree source (.of .start [assignmentOf raw]) [] =
      .ok ⟨⟨[recordOfString (String.ofList (Pieces.unescape (String.ofList raw).toList))
        (Script.sourceOf source ⟨1, 0⟩)], .empty⟩, some ⟨1, 0⟩, [], none⟩ := rfl

namespace Story

theorem features_assigning (raw : List Char) (name : String) (hn : '\n' ∉ raw) :
    (Story.mk name (String.ofList (assigning raw))).features .standard = .ok .off := by
  have hline : '\n' ∉ assigning raw := by simp [assigning, hn]
  have hheader : Features.off.applyHeader (assigning raw) = .ok .off := by
    change Features.off.applyLines (Text.lines (assigning raw)) = _
    rw [Features.applyLines_last hline]
    exact Features.applyLines_code (List.forall_mem_nil _) (by decide) fun h => absurd h (by decide)
  unfold features
  rw [String.toList_ofList]
  exact hheader ▸ rfl

/-- Nothing is reported about the story of a string, and its script has one record. -/
theorem compile_assigning {raw : List Char} (name : String) (hn : '\n' ∉ raw)
    (hcode : Pieces.hasCode raw = false)
    (hquote : Quotes.body '"' .text ⟨1, 6⟩ (raw ++ ['"']) = .ok (raw, [])) :
    ((Story.mk name (String.ofList (assigning raw))).compile .standard).result =
      .ok ⟨⟨[recordOfString (String.ofList (Pieces.unescape raw))
        (Script.sourceOf (String.ofList (assigning raw)) ⟨1, 0⟩)], .empty⟩, some ⟨1, 0⟩, [], none⟩ := by
  obtain ⟨p, hscan⟩ := scan_assigning hquote
  have hf := features_assigning raw name hn
  have htokens : (Story.mk name (String.ofList (assigning raw))).scanned (modeOf .standard .off) =
      ⟨.ok (tokensOf raw p), []⟩ := by
    rw [scanned, String.toList_ofList]
    exact hscan
  have htree : hoistedTreeOf (modeOf .standard .off) (tokensOf raw p) =
      .ok (.of .start [assignmentOf raw]) := by
    unfold hoistedTreeOf treeOf
    rw [show (modeOf .standard .off).grammar = .builtIn from rfl, ofTokens_assigning]
    exact story_assigning hcode
  obtain ⟨analysis, hcheck, hclean, hservices⟩ := check_assigning raw
  have hscript := ofTree_assigning (String.ofList (assigning raw)) raw
  rw [String.toList_ofList] at hscript
  unfold compile
  simp only [hf, htokens, htree]
  unfold check
  simp only [show Options.standard.registry = none from rfl, show Options.standard.scope = .empty from rfl,
    hcheck, hclean, hservices]
  unfold finish
  simp only [hscript]
  rfl

/-- Any characters can be written as a string, and the story that assigns it has one record, whose
only argument is the string of these characters. -/
theorem compile_escaped (name value : String) :
    ∃ c r, ((ofText name ("a = \"" ++ String.ofList (Pieces.escape value.toList) ++ "\"")).compile
        .standard).result = .ok c ∧
      c.script.records = [r] ∧ r.method = .set ∧ r.line = .ofLine 1 ∧
        Value.allToJson r.args = [.obj [("$OBJECT", .str "string"), ("string", .str value)]] := by
  let raw := Pieces.escape value.toList
  have hstory : ofText name ("a = \"" ++ String.ofList raw ++ "\"") =
      ⟨name, String.ofList (assigning raw)⟩ := by
    have htext : ("a = \"" ++ String.ofList raw ++ "\"").toList = assigning raw := by
      simp [assigning]
    rw [ofText, htext, assigning, Text.dropMark, if_neg (by decide)]
  have hcompile := compile_assigning name (Pieces.escape_onLine value.toList)
    (Pieces.hasCode_escape value.toList) (Quotes.body_escape ⟨1, 6⟩ value.toList [])
  rw [Pieces.unescape_escape, String.ofList_toList] at hcompile
  exact ⟨_, _, hstory ▸ hcompile, rfl, rfl, rfl, rfl⟩

end Story

end StoryLang
