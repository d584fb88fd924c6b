/-
The lines of a text, as they are shown and as they are trimmed, and the two
parts of a text that is cut at a character.
-/
import StoryLang.Text.Blank

namespace StoryLang

namespace Text

variable {line rest cs : List Char}

theorem splitOn_line (h : '\n' ∉ line) :
    splitOn '\n' (line ++ '\n' :: rest) = line :: splitOn '\n' rest := by
  induction line with
  | nil => simp [splitOn]
  | cons c line ih =>
    obtain ⟨hc, h⟩ : '\n' ≠ c ∧ '\n' ∉ line := by simpa using h
    simp [splitOn, Ne.symm hc, ih h, consFirst]

theorem splitOn_last (h : '\n' ∉ line) : splitOn '\n' line = [line] := by
  induction line with
  | nil => rfl
  | cons c line ih =>
    obtain ⟨hc, h⟩ : '\n' ≠ c ∧ '\n' ∉ line := by simpa using h
    simp [splitOn, Ne.symm hc, ih h, consFirst]

theorem lines_line (h : '\n' ∉ line) :
    lines (line ++ '\n' :: rest) = dropReturn line :: lines rest := by
  unfold lines
  rw [splitOn_line h]
  cases hs : splitOn '\n' rest with
  | nil => exact absurd hs (splitOn_ne_nil _ _)
  | cons part parts => rfl

theorem lines_last (h : '\n' ∉ line) : lines line = if line.isEmpty then [] else [line] := by
  unfold lines
  rw [splitOn_last h]
  rfl

/-- A text is one line, or a line and what is behind it. -/
theorem line_cases (cs : List Char) :
    ∃ line, '\n' ∉ line ∧ (cs = line ∨ ∃ more, cs = line ++ '\n' :: more) := by
  induction cs with
  | nil => exact ⟨[], List.not_mem_nil, .inl rfl⟩
  | cons c cs ih =>
    by_cases hc : c = '\n'
    · exact ⟨[], List.not_mem_nil, .inr ⟨cs, by rw [hc]; rfl⟩⟩
    · obtain ⟨line, hn, hcs⟩ := ih
      refine ⟨c :: line, by simp [Ne.symm hc, hn], hcs.imp (congrArg _) fun ⟨more, hm⟩ => ⟨more, ?_⟩⟩
      rw [hm, List.cons_append]

theorem ne_newline (hn : '\n' ∉ line) : ∀ c ∈ line, decide (c ≠ '\n') = true := by
  intro c hc
  rw [decide_eq_true_eq]
  rintro rfl
  exact hn hc

/-- What holds of a line, and of a line with more lines behind it, holds of every text. -/
theorem line_induction {P : List Char → Prop} (last : ∀ line, '\n' ∉ line → P line)
    (cons : ∀ line more, '\n' ∉ line → P more → P (line ++ '\n' :: more)) (cs : List Char) :
    P cs := by
  induction hn : cs.length using Nat.strongRecOn generalizing cs with
  | _ n ih =>
    obtain ⟨line, hl, rfl | ⟨more, rfl⟩⟩ := line_cases cs
    · exact last cs hl
    · refine cons line more hl (ih more.length ?_ more rfl)
      simp only [← hn, List.length_append, List.length_cons]
      omega

/-- The text in front of a newline and the text behind it have lines of their own. -/
theorem splitOn_append (cs rest : List Char) :
    splitOn '\n' (cs ++ '\n' :: rest) = splitOn '\n' cs ++ splitOn '\n' rest := by
  induction cs using line_induction with
  | last line hl => rw [splitOn_line hl, splitOn_last hl, List.singleton_append]
  | cons line more hl ih =>
    rw [List.append_assoc, List.cons_append, splitOn_line hl, ih, splitOn_line hl, List.cons_append]

/-- Lines in the middle of a text are lines of the text. -/
theorem infix_splitOn {row row' : List Char} (h : '\n' ∉ row) (h' : '\n' ∉ row')
    (above below : List Char) :
    [row, row'] <:+: splitOn '\n' (above ++ '\n' :: (row ++ '\n' :: (row' ++ '\n' :: below))) := by
  rw [splitOn_append, splitOn_line h, splitOn_line h']
  exact ⟨splitOn '\n' above, splitOn '\n' below, by simp⟩

/-- Behind the last newline there is a part, too. -/
theorem exists_parts (cs : List Char) : ∃ front last, splitOn '\n' cs = front ++ [last] :=
  ⟨_, _, (List.dropLast_concat_getLast (splitOn_ne_nil '\n' cs)).symm⟩

/-- The lines of parts are what is left of them without their carriage returns. The last one
keeps its own, and is no line if it is empty. -/
theorem linesOfParts_append (front : List (List Char)) (last : List Char) :
    linesOfParts (front ++ [last]) =
      front.map dropReturn ++ if last.isEmpty then [] else [last] := by
  induction front with
  | nil => rfl
  | cons part front ih =>
    obtain ⟨next, more, h⟩ := List.exists_cons_of_ne_nil
      (List.append_ne_nil_of_right_ne_nil front (List.cons_ne_nil last []))
    have hlines : linesOfParts (part :: next :: more) =
        dropReturn part :: linesOfParts (next :: more) := rfl
    rw [List.cons_append, h, hlines, ← h, ih]
    rfl

theorem trimEnd_blank {c : Char} (hc : isBlank c = true) (cs : List Char) :
    trimEnd (cs ++ [c]) = trimEnd cs := by
  simp [trimEnd, hc]

theorem trimEnd_cons {c : Char} (hc : isBlank c = false) (cs : List Char) :
    trimEnd (c :: cs) = c :: trimEnd cs := by
  unfold trimEnd
  rw [List.reverse_cons, List.dropWhile_append]
  split
  · rename_i h
    rw [List.isEmpty_iff.1 h, List.dropWhile_cons_of_neg (by simp [hc])]
    rfl
  · simp

/-- A text with something to see is not trimmed away. -/
theorem trim_ne {c : Char} (hm : c ∈ cs) (hc : isBlank c = false) : trim cs ≠ [] := by
  cases hs : trimStart cs with
  | nil =>
    have hall : cs.takeWhile isBlank ++ trimStart cs = cs := List.takeWhile_append_dropWhile
    rw [hs, List.append_nil] at hall
    rw [← hall] at hm
    simp [List.all_eq_true.1 List.all_takeWhile c hm] at hc
  | cons d rest =>
    have hd := List.head?_dropWhile_not isBlank cs
    rw [show cs.dropWhile isBlank = d :: rest from hs] at hd
    rw [trim, hs, trimEnd_cons hd]
    exact List.cons_ne_nil _ _

theorem trimEnd_prefix (cs : List Char) : trimEnd cs <+: cs := by
  rw [← List.reverse_suffix, trimEnd, List.reverse_reverse]
  exact List.dropWhile_suffix _

/-- The carriage return that ends a line is a blank. -/
theorem trim_dropReturn (line : List Char) : trim (dropReturn line) = trim line := by
  unfold dropReturn
  split
  · rename_i h
    have hblank : isBlank '\r' = true := by decide
    obtain ⟨front, rfl⟩ := List.getLast?_eq_some_iff.1 h
    rw [List.dropLast_concat, trim, trim, trimStart, trimStart, List.dropWhile_append]
    split
    · rename_i hall
      rw [List.isEmpty_iff.1 hall, List.dropWhile_cons_of_pos hblank]
      rfl
    · rw [trimEnd_blank hblank]
  · rfl

/-- A line with a blank start, and what can stand there. -/
theorem trim_blanks {blanks : List Char} (hb : ∀ c ∈ blanks, isBlank c = true) (cs : List Char) :
    trim (blanks ++ cs) = trim cs := by
  unfold trim trimStart
  rw [List.dropWhile_append_of_pos hb]

theorem trimEnd_blanks {blanks : List Char} (hb : ∀ c ∈ blanks, isBlank c = true) (cs : List Char) :
    trimEnd (cs ++ blanks) = trimEnd cs := by
  unfold trimEnd
  rw [List.reverse_append, List.dropWhile_append_of_pos fun c hc => hb c (List.mem_reverse.1 hc)]

/-- Blanks on either side are trimmed away. -/
theorem trim_between {before after : List Char} (hb : ∀ c ∈ before, isBlank c = true)
    (ha : ∀ c ∈ after, isBlank c = true) (cs : List Char) : trim (before ++ cs ++ after) = trim cs := by
  rw [List.append_assoc, trim_blanks hb, trim, trim, trimStart, trimStart, List.dropWhile_append]
  split
  · rename_i h
    rw [List.isEmpty_iff.1 h, ← List.append_nil after, List.dropWhile_append_of_pos ha, List.dropWhile_nil]
  · exact trimEnd_blanks ha _

/-- A text that starts and ends with something to see is as it is when it is trimmed. -/
theorem trim_eq_self (hfirst : ∀ c ∈ cs.head?, isBlank c = false)
    (hlast : ∀ c ∈ cs.getLast?, isBlank c = false) : trim cs = cs := by
  have hdrop (cs : List Char) (h : ∀ c ∈ cs.head?, isBlank c = false) : cs.dropWhile isBlank = cs := by
    cases cs with
    | nil => rfl
    | cons c cs => exact List.dropWhile_cons_of_neg (by simp [h c rfl])
  rw [trim, trimStart, hdrop cs hfirst, trimEnd, hdrop _ (by rwa [List.head?_reverse]),
    List.reverse_reverse]

/-! ## The first of some character -/

variable {sep : Char} {name : List Char}

theorem splitFirst?_some (h : splitFirst? sep cs = some (name, rest)) :
    cs = name ++ sep :: rest := by
  induction cs generalizing name with
  | nil => cases h
  | cons c cs ih =>
    rw [splitFirst?] at h
    split at h
    · rename_i hc
      obtain ⟨rfl, rfl⟩ : [] = name ∧ cs = rest := by simpa using h
      rw [hc, List.nil_append]
    · obtain ⟨⟨front, back⟩, hsplit, hpair⟩ := Option.map_eq_some_iff.1 h
      obtain ⟨rfl, rfl⟩ := Prod.mk.inj hpair
      rw [List.cons_append, ← ih hsplit]

theorem splitFirst?_append (h : sep ∉ name) :
    splitFirst? sep (name ++ sep :: rest) = some (name, rest) := by
  induction name with
  | nil => simp [splitFirst?]
  | cons c name ih =>
    obtain ⟨hc, hn⟩ : sep ≠ c ∧ sep ∉ name := by simpa using h
    simp [splitFirst?, Ne.symm hc, ih hn]

theorem splitFirst?_none (h : sep ∉ cs) : splitFirst? sep cs = none := by
  induction cs with
  | nil => rfl
  | cons c cs ih =>
    obtain ⟨hc, hcs⟩ : sep ≠ c ∧ sep ∉ cs := by simpa using h
    simp [splitFirst?, Ne.symm hc, ih hcs]

end Text

end StoryLang
