/-
The caret of a report is under the character that the report is about.

The line of the caret has a tab wherever the line above it has one, and a
blank for every other character. So both lines are equally wide up to the
caret, however wide a tab is: a tab ends at the next multiple of its width,
and it starts at the same column in both.
-/
import Mathlib.Data.List.Forall2
import StoryLang.Diagnostic.Basic
import StoryLang.Proofs.Text.Lines
import StoryLang.Proofs.Text.Number

namespace StoryLang

namespace Text

/-! ## Columns on a display -/

/-- The column behind a character. A tab goes on to the next multiple of its width, every other
character is one column wide. -/
def columnBehind (tab column : Nat) (c : Char) : Nat :=
  if c = '\t' then (column / tab + 1) * tab else column + 1

/-- The column at which a line shows its character number `i`, both counted from zero. -/
def displayColumn (tab : Nat) (line : List Char) (i : Nat) : Nat :=
  (line.take i).foldl (columnBehind tab) 0

/-- Two rows of characters with tabs at the same places. -/
def SameTabs (cs ds : List Char) : Prop := List.Forall₂ (fun c d => c = '\t' ↔ d = '\t') cs ds

/-- Rows with the same tabs are equally wide from every column on. -/
theorem SameTabs.foldl_eq {cs ds : List Char} (h : SameTabs cs ds) (tab column : Nat) :
    cs.foldl (columnBehind tab) column = ds.foldl (columnBehind tab) column := by
  induction h generalizing column with
  | nil => rfl
  | @cons c d cs ds hcd _ ih =>
    have hstep : columnBehind tab column c = columnBehind tab column d := by
      unfold columnBehind
      split
      · rw [if_pos (hcd.1 ‹_›)]
      · rw [if_neg (mt hcd.2 ‹_›)]
    rw [List.foldl_cons, List.foldl_cons, hstep, ih]

theorem sameTabs_blanks {cs : List Char} (h : '\t' ∉ cs) :
    SameTabs (List.replicate cs.length ' ') cs := by
  induction cs with
  | nil => exact .nil
  | cons c cs ih =>
    obtain ⟨hc, hcs⟩ : '\t' ≠ c ∧ '\t' ∉ cs := by simpa using h
    exact .cons (by simp [Ne.symm hc]) (ih hcs)

end Text

namespace Diagnostic

open Text

variable {d : Diagnostic} {p : Position} {line : String}

/-! ## What is shown of the story -/

theorem message_eq (hd : d.category ≠ .internal) :
    d.message = d.heading .plain ++ d.excerpt .plain ++ "\n\n" ++ ("" ++ d.shortMessage ++ "") :=
  if_neg hd

theorem length_padding (n : Nat) (cs : List Char) : (padding n cs).length = n := by
  induction n generalizing cs with
  | zero => rfl
  | succ n ih => cases cs <;> simp [padding, ih]

theorem mem_padding {n : Nat} {cs : List Char} {c : Char} (h : c ∈ padding n cs) :
    c = ' ' ∨ c = '\t' := by
  induction n generalizing cs with
  | zero => cases h
  | succ n ih =>
    cases cs with
    | nil => exact (List.mem_cons.1 h).elim .inl ih
    | cons d cs =>
      refine (List.mem_cons.1 h).elim (fun hc => ?_) ih
      split at hc
      · exact .inr hc
      · exact .inl hc

/-- The padding repeats the tabs of as many characters. -/
theorem sameTabs_padding {n : Nat} {cs : List Char} (h : n ≤ cs.length) :
    SameTabs (padding n cs) (cs.take n) := by
  induction n generalizing cs with
  | zero => exact .nil
  | succ n ih =>
    cases cs with
    | nil => simp at h
    | cons c cs =>
      refine .cons ?_ (ih (by simpa using h))
      split <;> simp_all

/-- What stands in front of a shown line: its number and a margin. -/
def margin (p : Position) : String := toString p.line ++ "|    "

theorem mem_margin {c : Char} (h : c ∈ (margin p).toList) : c ≠ '\t' ∧ c ≠ '\n' := by
  rw [margin, String.toList_append, List.mem_append] at h
  rcases h with h | h
  · rw [toList_toString] at h
    have := (numeral_toDigits _).digits c h
    constructor <;> rintro rfl <;> cases this
  · obtain rfl | rfl : c = '|' ∨ c = ' ' := by simpa using h
    · decide
    · decide

theorem shownLine_eq : shownLine p line = margin p ++ line := rfl

theorem toList_caretPadding : (caretPadding p line).toList =
    List.replicate (margin p).toList.length ' ' ++ padding (p.column - 1) line.toList := by
  rw [caretPadding, String.toList_ofList, margin, String.length_toList, String.length_append]
  rfl

theorem length_caretPadding (p : Position) (line : String) :
    (caretPadding p line).length = (margin p).length + (p.column - 1) := by
  rw [← String.length_toList, toList_caretPadding, List.length_append, List.length_replicate,
    length_padding, String.length_toList]

/-- The caret's line has the tabs of the shown line, up to the caret. -/
theorem sameTabs_caretPadding (h : p.column - 1 ≤ line.toList.length) :
    SameTabs (caretPadding p line).toList
      ((shownLine p line).toList.take (caretPadding p line).length) := by
  have htake : (shownLine p line).toList.take (caretPadding p line).length =
      (margin p).toList ++ line.toList.take (p.column - 1) := by
    rw [length_caretPadding, shownLine_eq, String.toList_append, ← String.length_toList,
      List.take_length_add_append]
  rw [htake, toList_caretPadding]
  exact List.rel_append (sameTabs_blanks fun hm => (mem_margin hm).1 rfl) (sameTabs_padding h)

theorem newline_shownLine (p : Position) (h : '\n' ∉ line.toList) :
    '\n' ∉ (shownLine p line).toList := by
  rw [shownLine_eq, String.toList_append, List.mem_append, not_or]
  exact ⟨fun hm => (mem_margin hm).2 rfl, h⟩

theorem mem_caretPadding {c : Char} (h : c ∈ (caretPadding p line).toList) :
    c = ' ' ∨ c = '\t' := by
  rw [toList_caretPadding, List.mem_append] at h
  exact h.elim (fun hm => .inl (List.eq_of_mem_replicate hm)) mem_padding

theorem newline_caretPadding (p : Position) (line : String) :
    '\n' ∉ (caretPadding p line ++ "^").toList := by
  rw [String.toList_append, List.mem_append, not_or]
  refine ⟨fun hm => ?_, by decide⟩
  rcases mem_caretPadding hm with h | h <;> cases h

/-- A report with a place and a line of the story shows that line and, on the line below it, a
caret and nothing else to see. Whatever the width of a tab, the caret is in the display column of
the character at the column of the place, or right behind the line if the column is. -/
theorem caret_aligned (hd : d.category ≠ .internal) (hp : d.position = some p)
    (hl : d.sourceLine = some line) (hfirst : 1 ≤ p.column) (hlast : p.column ≤ line.length + 1) :
    ∃ above below shown caret pad : String,
      d.message = above ++ "\n" ++ shown ++ "\n" ++ caret ++ "\n" ++ below ∧
      shown = toString p.line ++ "|    " ++ line ∧ caret = pad ++ "^" ∧
      (∀ c ∈ pad.toList, c = ' ' ∨ c = '\t') ∧
      ('\n' ∉ line.toList → [shown.toList, caret.toList] <:+: splitOn '\n' d.message.toList) ∧
      pad.length + 1 = (toString p.line ++ "|    ").length + p.column ∧
      ∀ tab, displayColumn tab caret.toList pad.length = displayColumn tab shown.toList pad.length := by
  have hmessage : d.message = d.heading .plain ++ "\n" ++ "\n" ++ shownLine p line ++ "\n" ++
      (caretPadding p line ++ "^") ++ "\n" ++ ("\n" ++ d.shortMessage) := by
    rw [message_eq hd, excerpt, hp, hl]
    apply String.toList_inj.1
    simp [Colors.plain]
  refine ⟨_, _, shownLine p line, _, caretPadding p line, hmessage, rfl, rfl,
    fun c => mem_caretPadding, fun hn => ?_, ?_, fun tab => ?_⟩
  · have hlines := infix_splitOn (newline_shownLine p hn) (newline_caretPadding p line)
      (d.heading .plain ++ "\n").toList ("\n" ++ d.shortMessage).toList
    rw [hmessage]
    simpa using hlines
  · have := length_caretPadding p line
    rw [margin] at this
    omega
  · have hcolumn : p.column - 1 ≤ line.toList.length := by
      rw [String.length_toList]
      omega
    have htabs := sameTabs_caretPadding hcolumn
    have hfront : ((caretPadding p line ++ "^").toList).take (caretPadding p line).length =
        (caretPadding p line).toList := by
      rw [String.toList_append, ← String.length_toList, List.take_left]
    rw [displayColumn, hfront, htabs.foldl_eq, displayColumn]

/-- A report about the end of a line that starts with a tab. -/
def tabbed : Diagnostic :=
  { (ofCode .assignmentWithoutValue []).placed ⟨12, 5⟩ with sourceLine := some "\tx =" }

theorem caret_aligned_tabbed :
    tabbed.category ≠ .internal ∧ 5 ≤ "\tx =".length + 1 ∧ ∃ above below caret pad : String,
      tabbed.message = above ++ "\n" ++ "12|    \tx =" ++ "\n" ++ caret ++ "\n" ++ below ∧
      caret = pad ++ "^" ∧ pad.length = 11 ∧
      ["12|    \tx =".toList, caret.toList] <:+: splitOn '\n' tabbed.message.toList ∧
      ∀ tab, displayColumn tab caret.toList 11 = displayColumn tab "12|    \tx =".toList 11 := by
  have hd : tabbed.category ≠ .internal := by decide
  obtain ⟨above, below, _, caret, pad, hm, rfl, hc, -, hlines, hlen, htab⟩ :=
    @caret_aligned tabbed ⟨12, 5⟩ "\tx =" hd rfl rfl (by decide) (by decide)
  have hmargin : (toString 12 ++ "|    ").length = 7 := by decide
  have hpad : pad.length = 11 := by
    dsimp only at hlen
    omega
  rw [hpad] at htab
  exact ⟨hd, by decide, above, below, caret, pad, hm, hc, hpad, hlines (by decide), htab⟩

end Diagnostic

end StoryLang
