/-
Faults of the story, as opposed to defects of the compiler.

A scan stops at a fault of the text and a reader at a fault in the order of
the tokens. Either is reported as an error and never as an internal one,
whatever shape the tokens around the place have.
-/
import Mathlib.Tactic.SplitIfs
import StoryLang.Tree.Shape

namespace StoryLang

/-- The code says that the story is at fault, and that it can't be compiled. -/
def Code.isFault (c : Code) : Bool := c ≠ .internal && c.definition.severity = .error

theorem Code.isFault_iff {c : Code} :
    c.isFault = true ↔ c ≠ .internal ∧ c.definition.severity = .error := by
  simp [isFault]

/-- The fault is reported as an error of the story, and not as an internal one. -/
def Fault.OfStory (f : Fault) : Prop := f.diagnostic.code.isFault = true

theorem Fault.OfStory.code_ne {f : Fault} (h : f.OfStory) : f.diagnostic.code ≠ .internal :=
  (Code.isFault_iff.1 h).1

theorem LexFault.ofStory (f : LexFault) : (Fault.inText f).OfStory := by
  show f.code.isFault = true
  unfold LexFault.code
  split <;> rfl

/-- The codes of a `return`, `break` or `continue` that is not in what it jumps out of. -/
def Code.isOutside : Code → Bool
  | .returnOutsideFunction | .breakOutsideLoop | .continueOutsideLoop => true
  | _ => false

theorem Code.isOutside_iff {c : Code} :
    c.isOutside = true ↔ c.name ∈ ["E0004", "E0044", "E0050"] := by
  cases c <;> decide

/-- The codes of a token that could not come. -/
def Code.isStuck (c : Code) : Bool := c.isFault && !c.isOutside

theorem Keyword.reservedCode?_isStuck {k : Keyword} {code : Code}
    (h : k.reservedCode? = some code) : code.isStuck = true := by
  cases k <;> cases h <;> rfl

theorem TokenKind.reservedCode?_isStuck {k : TokenKind} {code : Code}
    (h : k.reservedCode? = some code) : code.isStuck = true := by
  cases k with
  | keyword k => exact Keyword.reservedCode?_isStuck h
  | _ => cases h

theorem futureCode?_isStuck {word : String} {code : Code} (h : futureCode? word = some code) :
    code.isStuck = true := by
  unfold futureCode? at h
  split_ifs at h <;> cases h <;> rfl

namespace Stuck

variable {s : Stuck} {r : Report}

theorem reservedWord_isStuck (h : s.reservedWord = some r) : r.1.isStuck = true := by
  unfold reservedWord at h
  simp only [Option.or_eq_some_iff, Option.or_eq_none_iff] at h
  rcases h with (h | ⟨-, h⟩) | ⟨-, h⟩
  · split at h
    · obtain ⟨code, hc, rfl⟩ := Option.map_eq_some_iff.1 h
      exact TokenKind.reservedCode?_isStuck hc
    · cases h
  · split at h
    · split at h
      · obtain ⟨code, hc, rfl⟩ := Option.map_eq_some_iff.1 h
        exact TokenKind.reservedCode?_isStuck hc
      · cases h
    · cases h
  · split at h
    · obtain ⟨code, hc, rfl⟩ := Option.map_eq_some_iff.1 h
      exact futureCode?_isStuck hc
    · cases h

theorem notClosed_isStuck (h : s.notClosed = some r) : r.1.isStuck = true := by
  unfold notClosed at h
  dsimp only at h
  split at h
  · obtain ⟨code, hc, rfl⟩ := Option.map_eq_some_iff.1 h
    split at hc
    · split at hc <;> cases hc
      rfl
    · split at hc <;> cases hc
      rfl
    · cases hc
  · cases h

theorem signReport?_isStuck {t : Token} (h : signReport? t = some r) : r.1.isStuck = true := by
  unfold signReport? at h
  split_ifs at h <;> cases h <;> rfl

theorem signInName_isStuck (h : s.signInName = some r) : r.1.isStuck = true := by
  unfold signInName at h
  split at h
  · obtain ⟨t, -, ht⟩ := List.exists_of_findSome?_eq_some h
    exact signReport?_isStuck ht
  · cases h

theorem badImport_isStuck (h : s.badImport = some r) : r.1.isStuck = true := by
  unfold badImport at h
  split at h
  · cases h
  · split at h
    · split at h <;> cases h
      rfl
    · split at h <;> cases h
      rfl
    · cases h

/-- Whatever shape it is, the story is at fault, and not for a jump. -/
theorem shapes_isStuck {shape : Stuck → Option Report} (hs : shape ∈ shapes)
    (h : shape s = some r) : r.1.isStuck = true := by
  simp only [shapes, List.mem_cons, List.not_mem_nil, or_false] at hs
  rcases hs with rfl | rfl | rfl | rfl | rfl | rfl | rfl | rfl | rfl | rfl | rfl | rfl | rfl
  · exact reservedWord_isStuck h
  · unfold noValue at h; split at h <;> cases h; rfl
  · unfold strayThen at h; split at h <;> cases h; rfl
  · unfold trailingComma at h; split at h <;> (try split at h) <;> cases h; rfl
  · exact notClosed_isStuck h
  · unfold notOpened at h; split_ifs at h <;> cases h <;> rfl
  · unfold strayColon at h; split at h <;> cases h; rfl
  · unfold noService at h; split at h <;> (try split at h) <;> cases h; rfl
  · unfold noColon at h; split at h <;> cases h; rfl
  · exact signInName_isStuck h
  · exact badImport_isStuck h
  · unfold misspelling at h; split_ifs at h <;> cases h <;> rfl
  · unfold noOperator at h; split at h <;> cases h; rfl

theorem fault_isStuck (s : Stuck) : s.fault.code.isStuck = true := by
  unfold fault
  split
  · rename_i code place h
    obtain ⟨shape, hs, hr⟩ := List.exists_of_findSome?_eq_some h
    exact shapes_isStuck hs hr
  · rfl

theorem fault_ofStory (s : Stuck) : (Fault.inTokens s.fault).OfStory :=
  (Bool.and_eq_true_iff.1 s.fault_isStuck).1

/-- Being stuck at a jump is another thing than the jump being outside. -/
theorem fault_inside (s : Stuck) : s.fault.code.isOutside = false := by
  simpa using (Bool.and_eq_true_iff.1 s.fault_isStuck).2

@[simp] theorem fault_token (s : Stuck) : s.fault.token = s.current := by
  unfold fault
  split <;> rfl

@[simp] theorem fault_expected (s : Stuck) : s.fault.expected = s.expected := by
  unfold fault
  split <;> rfl

end Stuck

end StoryLang
