/-
Where reading stops.

A fault names the token at which reading stopped, and a story may have that
token at more than one place. Readers do not look at lines, so the tokens can
be told apart by writing the number of each one in place of its line: reading
goes the same way, and the line of the token it stops at is its number.
-/
import StoryLang.Proofs.Fault
import StoryLang.Proofs.Tree.Reading.Statement
import StoryLang.Proofs.Tree.Together

namespace StoryLang

/-- The token on another line. -/
def Token.onLine (t : Token) (line : Nat) : Token := { t with position := { t.position with line } }

@[simp] theorem Token.kind_onLine (t : Token) (n : Nat) : (t.onLine n).kind = t.kind := rfl

@[simp] theorem Token.literal_onLine (t : Token) (n : Nat) : (t.onLine n).literal = t.literal := rfl

@[simp] theorem Token.line_onLine (t : Token) (n : Nat) : (t.onLine n).line = n := rfl

/-- A token and one in its place that is of the same kind, and no other name. -/
structure Token.TakenFor (t t' : Token) : Prop where
  kind : t'.kind = t.kind
  name : t.kind = .name → t'.literal = t.literal

theorem Token.TakenFor.refl (t : Token) : t.TakenFor t := ⟨rfl, fun _ => rfl⟩

/-- A token and the same one by its number. -/
def Token.Numbers (all : List Token) (t t' : Token) : Prop := ∃ i, all[i]? = some t ∧ t' = t.onLine i

namespace Cursor

/-- The tokens of a story up to its end. -/
def completed (tokens : List Token) : List Token := tokens ++ missingEnd tokens

/-- Every token on the line of its number. -/
def numbered (tokens : List Token) : List Token := tokens.mapIdx fun i t => t.onLine i

theorem missingEnd_eq_nil {tokens : List Token} (h : tokens.getLast?.map Token.kind = some .eof) :
    missingEnd tokens = [] := by
  obtain ⟨last, hlast, hk⟩ := Option.map_eq_some_iff.1 h
  simp [missingEnd, hlast, hk]

theorem getLast?_completed (tokens : List Token) :
    (completed tokens).getLast?.map Token.kind = some .eof := by
  have h := ended_start tokens
  rwa [Ended, upcoming_start] at h

@[simp] theorem length_numbered (tokens : List Token) :
    (numbered tokens).length = tokens.length := by
  simp [numbered]

@[simp] theorem kinds_numbered (tokens : List Token) :
    (numbered tokens).map Token.kind = tokens.map Token.kind := by
  refine List.ext_getElem? fun i => ?_
  simp [numbered, Function.comp_def]

theorem getElem?_numbered (tokens : List Token) (i : Nat) :
    (numbered tokens)[i]? = tokens[i]?.map (·.onLine i) := by
  rw [numbered, List.getElem?_mapIdx]

theorem missingEnd_numbered {tokens : List Token}
    (h : tokens.getLast?.map Token.kind = some .eof) : missingEnd (numbered tokens) = [] := by
  apply missingEnd_eq_nil
  rw [List.getLast?_eq_getElem?] at h ⊢
  simpa [numbered, List.getElem?_mapIdx, Option.map_map, Function.comp_def] using h

theorem numbers_numbered (tokens : List Token) :
    List.Forall₂ (Token.Numbers tokens) tokens (numbered tokens) := by
  refine List.forall₂_iff_get.2 ⟨by simp, fun i hi hi' => ⟨i, ?_, ?_⟩⟩
  · simp [hi]
  · simp [numbered]

theorem start_completed (tokens : List Token) : start (completed tokens) = start tokens := by
  rw [start, missingEnd_eq_nil (getLast?_completed tokens), List.append_nil, start, completed]

theorem completed_numbered (tokens : List Token) :
    completed (numbered (completed tokens)) = numbered (completed tokens) := by
  rw [completed, missingEnd_numbered (getLast?_completed tokens), List.append_nil]

/-- There are as many tokens left by their numbers. -/
theorem left_numbered (tokens : List Token) :
    (start (numbered (completed tokens))).left = (start tokens).left := by
  have h := congrArg List.length (upcoming_start tokens)
  have h' := congrArg List.length (upcoming_start (numbered (completed tokens)))
  rw [← completed] at h h'
  rw [completed_numbered, length_numbered, ← h] at h'
  simpa [upcoming, left] using h'

end Cursor

namespace Tree

/-- Reading the tokens of a story by their numbers. -/
def ofNumbered (g : Grammar) (tokens : List Token) : Except Fault Tree :=
  (Read.story g (Read.bound tokens) (Cursor.start (Cursor.numbered (Cursor.completed tokens)))).map (·.1)

/-- The number of the token at which reading a story stops. -/
def stopsAt? (g : Grammar) (tokens : List Token) : Option Nat :=
  match ofNumbered g tokens with
  | .error (.inTokens f) => some f.token.line
  | _ => none

/-- Stopping at a token, and at the same one by its number. -/
inductive StopsAlike (all : List Token) : Fault → Fault → Prop where
  | inTokens {f f' : SyntaxFault} (token : Token.Numbers all f.token f'.token)
      (expected : f'.expected = f.expected)
      (outside : f.code.isOutside = true → f'.code = f.code) :
    StopsAlike all (.inTokens f) (.inTokens f')
  | tooManySteps : StopsAlike all (.internal .tooManySteps) (.internal .tooManySteps)

end Tree

namespace Read

theorem setting_numbers (all : List Token) (g : Grammar) :
    StorySetting (Token.Numbers all) (Tree.StopsAlike all) g g where
  tokens := { kind := fun _ _ ⟨_, _, h⟩ => by simp [h], name := fun _ _ ⟨_, _, h⟩ _ => by simp [h] }
  operators := rfl
  castPrecedence := rfl
  reserved := rfl
  typeNames := rfl
  stuck {c c'} h ks := by
    refine .inTokens ?_ (by simp [Cursor.stuck]) fun ho => ?_
    · simpa [Cursor.stuck] using h.current
    · rw [Stuck.fault_inside] at ho
      cases ho
  bounded := .tooManySteps
  refused h code := .inTokens h rfl fun _ => rfl

end Read

namespace Tree

open Cursor (completed numbered)

variable {g : Grammar} {tokens : List Token}

theorem ofNumbered_alike (g : Grammar) (tokens : List Token) :
    EndAlike (StopsAlike (completed tokens)) (fun _ _ => True) (ofTokens g tokens)
      (ofNumbered g tokens) := by
  have hend := Cursor.missingEnd_eq_nil (Cursor.getLast?_completed tokens)
  have hend' := Cursor.missingEnd_numbered (Cursor.getLast?_completed tokens)
  have hstart := like_start (Cursor.numbers_numbered (completed tokens)) hend hend'
  rw [Cursor.start_completed] at hstart
  exact (Read.story_alike (Read.setting_numbers (completed tokens) g) _ _ _ hstart).map
    fun _ _ _ => trivial

/-- Where a story is not read, reading stops at one of its tokens, or for the bound on its steps. -/
theorem ofTokens_error_cases {f : Fault} (h : ofTokens g tokens = .error f) :
    (∃ s, f = .inTokens s) ∨ f = .internal .tooManySteps := by
  have halike := ofNumbered_alike g tokens
  rw [h] at halike
  generalize ofNumbered g tokens = r at halike
  cases halike with
  | error reasons =>
    cases reasons with
    | inTokens => exact .inl ⟨_, rfl⟩
    | tooManySteps => exact .inr rfl

/-- Reading stops at the token that its fault names. -/
theorem stopsAt?_of_error {f : SyntaxFault} (h : ofTokens g tokens = .error (.inTokens f)) :
    ∃ i f', ofNumbered g tokens = .error (.inTokens f') ∧ stopsAt? g tokens = some i ∧
      (completed tokens)[i]? = some f.token ∧ f'.token = f.token.onLine i ∧
      f'.expected = f.expected ∧ (f.code.isOutside = true → f'.code = f.code) := by
  have halike := ofNumbered_alike g tokens
  rw [h] at halike
  cases hn : ofNumbered g tokens with
  | ok t => rw [hn] at halike; cases halike
  | error e =>
    rw [hn] at halike
    cases halike with
    | error hreason =>
      cases hreason with
      | inTokens htoken hexpected houtside =>
        obtain ⟨i, hi, htoken⟩ := htoken
        exact ⟨i, _, rfl, by simp [stopsAt?, hn, htoken], hi, htoken, hexpected, houtside⟩

/-- Stopping on the same line. -/
inductive StopsLevel : Fault → Fault → Prop where
  | inTokens {f f' : SyntaxFault} (line : f'.token.line = f.token.line) :
    StopsLevel (.inTokens f) (.inTokens f')
  | tooManySteps : StopsLevel (.internal .tooManySteps) (.internal .tooManySteps)

theorem setting_takenFor (g : Grammar) :
    Read.StorySetting (fun t t' => t.TakenFor t' ∧ t'.line = t.line) StopsLevel g g where
  tokens := { kind := fun _ _ h => h.1.kind, name := fun _ _ h => h.1.name }
  operators := rfl
  castPrecedence := rfl
  reserved := rfl
  typeNames := rfl
  stuck h _ := .inTokens (by simpa [Cursor.stuck] using h.current.2)
  bounded := .tooManySteps
  refused h _ := .inTokens h.2

/-- Where reading stops is decided by the kinds of the tokens and by the names. -/
theorem stopsAt?_takenFor {tokens' : List Token} (h : List.Forall₂ Token.TakenFor tokens tokens')
    (he : Cursor.missingEnd tokens = []) (he' : Cursor.missingEnd tokens' = []) :
    stopsAt? g tokens' = stopsAt? g tokens := by
  have hc : completed tokens = tokens := by rw [completed, he, List.append_nil]
  have hc' : completed tokens' = tokens' := by rw [completed, he', List.append_nil]
  have hnumbered : List.Forall₂ (fun t t' => Token.TakenFor t t' ∧ t'.line = t.line)
      (numbered tokens) (numbered tokens') := by
    refine List.forall₂_iff_get.2 ⟨by simp [h.length_eq], fun i hi hi' => ?_⟩
    rw [Cursor.length_numbered] at hi hi'
    have ht := (List.forall₂_iff_get.1 h).2 i hi hi'
    exact ⟨⟨by simpa [numbered] using ht.kind, by simpa [numbered] using ht.name⟩, by simp [numbered]⟩
  have hend := Cursor.missingEnd_numbered (Cursor.getLast?_completed tokens)
  have hend' := Cursor.missingEnd_numbered (Cursor.getLast?_completed tokens')
  rw [hc] at hend
  rw [hc'] at hend'
  have hread := Read.story_alike (setting_takenFor g) (Read.bound tokens) _ _
    (like_start hnumbered hend hend')
  have hbound : Read.bound tokens' = Read.bound tokens := by rw [Read.bound, ← h.length_eq, Read.bound]
  rw [stopsAt?, ofNumbered, hc', hbound, stopsAt?, ofNumbered, hc]
  generalize Read.story g (Read.bound tokens) (Cursor.start (numbered tokens)) = x,
    Read.story g (Read.bound tokens) (Cursor.start (numbered tokens')) = x' at hread ⊢
  cases hread with
  | ok => rfl
  | error hstops =>
    cases hstops with
    | inTokens hline => exact congrArg some hline
    | tooManySteps => rfl

/-- What a token says does not matter, if it is no name. -/
theorem stopsAt?_set {i : Nat} {t u : Token} (hk : u.kind = t.kind) (hn : t.kind ≠ .name)
    (he : Cursor.missingEnd (tokens.set i t) = []) (he' : Cursor.missingEnd (tokens.set i u) = []) :
    stopsAt? g (tokens.set i u) = stopsAt? g (tokens.set i t) := by
  refine stopsAt?_takenFor (List.forall₂_iff_get.2 ⟨by simp, fun j hj hj' => ?_⟩) he he'
  rw [List.get_eq_getElem, List.get_eq_getElem, List.getElem_set, List.getElem_set]
  split
  · exact ⟨hk, fun h => absurd h hn⟩
  · exact .refl _

end Tree

end StoryLang
