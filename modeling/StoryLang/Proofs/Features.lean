/-
The settings at the start of a text.

They stand in comments, and in front of them there are blank lines and other
comments only. The first line of code ends them, so what is behind its first
characters does not matter.
-/
import Mathlib.Data.List.TakeWhile
import StoryLang.Features
import StoryLang.Proofs.Text.Lines
import StoryLang.Proofs.Token.Led

namespace StoryLang

namespace Text

/-- Blanks within a line. -/
def isSpace (c : Char) : Bool := Text.isBlank c && c != '\n'

/-- A character that is no code. -/
def isMute (c : Char) : Bool := isBlank c || c = byteOrderMark

theorem isMute_space {c : Char} (h : isSpace c = true) : isMute c = true := by
  simp only [isSpace, Bool.and_eq_true] at h
  simp [isMute, h.1]

/-- A text without code: comments that end their lines, and what can be between them. -/
inductive Quiet : List Char → Prop where
  | nil : Quiet []
  | mute {c rest} (mute : isMute c = true) (others : Quiet rest) : Quiet (c :: rest)
  | comment {rest} (others : Quiet (rest.dropWhile (· ≠ '\n'))) : Quiet ('/' :: '/' :: rest)

namespace Quiet

variable {blanks line cs : List Char}

theorem mutes (hb : ∀ c ∈ blanks, isMute c = true) (h : Quiet cs) : Quiet (blanks ++ cs) := by
  induction blanks with
  | nil => exact h
  | cons c blanks ih =>
    obtain ⟨hc, hb⟩ := List.forall_mem_cons.1 hb
    exact .mute hc (ih hb)

theorem newline (h : Quiet cs) : Quiet ('\n' :: cs) := .mute (by decide) h

/-- A comment, and what comes behind its line. -/
theorem commentLine (hn : '\n' ∉ line) (h : Quiet cs) : Quiet ('/' :: '/' :: line ++ '\n' :: cs) := by
  have hdrop : (line ++ '\n' :: cs).dropWhile (· ≠ '\n') = '\n' :: cs := by
    rw [List.dropWhile_append_of_pos (ne_newline hn)]
    rfl
  have hend : Quiet ((line ++ '\n' :: cs).dropWhile (· ≠ '\n')) := by
    rw [hdrop]
    exact h.newline
  exact .comment hend

theorem lastComment (hn : '\n' ∉ line) : Quiet ('/' :: '/' :: line) := by
  refine .comment ?_
  rw [List.dropWhile_eq_nil_iff.2 (ne_newline hn)]
  exact .nil

end Quiet

end Text

namespace Features

open Scan (lead lead_cases)
open Text (trim dropReturn isBlank isSpace)

variable {f : Features} {line rest cs : List Char}

theorem applyLines_congr {raw raw' : List Char} {lines lines' : List (List Char)}
    (hraw : trim raw' = trim raw) (h : ∀ f : Features, f.applyLines lines' = f.applyLines lines) :
    f.applyLines (raw' :: lines') = f.applyLines (raw :: lines) := by
  unfold applyLines
  simp only [hraw, h]

theorem applyLines_line (hn : '\n' ∉ line) :
    f.applyLines (Text.lines (line ++ '\n' :: rest)) = f.applyLines (line :: Text.lines rest) := by
  rw [Text.lines_line hn]
  exact applyLines_congr (Text.trim_dropReturn line) fun _ => rfl

theorem applyLines_last (hn : '\n' ∉ line) : f.applyLines (Text.lines line) = f.applyLines [line] := by
  rw [Text.lines_last hn]
  cases line <;> rfl

theorem dropPrefix?_slashes {ps : List Char} (h : ∀ tail, cs ≠ '/' :: '/' :: tail) :
    Text.dropPrefix? ('/' :: '/' :: ps) cs = none := by
  cases cs with
  | nil => rfl
  | cons c cs =>
    by_cases hc : '/' = c
    · subst hc
      cases cs with
      | nil => simp [Text.dropPrefix?]
      | cons d cs =>
        have hd : '/' ≠ d := fun hd => h cs (by rw [← hd])
        simp [Text.dropPrefix?, hd]
    · simp [Text.dropPrefix?, hc]

/-- A line of code ends the settings. -/
theorem applyLines_code {blanks : List Char} {c : Char} {more : List Char} {lines : List (List Char)}
    (hb : ∀ c ∈ blanks, isBlank c = true) (hc : isBlank c = false)
    (hs : c = '/' → more.head? ≠ some '/') :
    f.applyLines ((blanks ++ c :: more) :: lines) = .ok f := by
  have htrim : trim (blanks ++ c :: more) = c :: Text.trimEnd more := by
    rw [Text.trim_blanks hb, trim, Text.trimStart, List.dropWhile_cons_of_neg (by simp [hc]),
      Text.trimEnd_cons hc]
  have hslash (tail : List Char) : c :: Text.trimEnd more ≠ '/' :: '/' :: tail := by
    intro h
    obtain ⟨hcs, htail⟩ := List.cons.inj h
    obtain ⟨others, ho⟩ := Text.trimEnd_prefix more
    rw [htail] at ho
    exact hs hcs (by simp [← ho])
  unfold applyLines
  rw [htrim, show "// FEAT:".toList = '/' :: '/' :: " FEAT:".toList from rfl]
  dsimp only
  rw [dropPrefix?_slashes hslash, dropPrefix?_slashes hslash]
  simp

/-- What is read of lines with the same first line. -/
theorem applyLines_rest {line : List Char} (hn : '\n' ∉ line) {cs cs' : List Char}
    (h : ∀ f : Features, f.applyLines (Text.lines cs') = f.applyLines (Text.lines cs)) (f : Features) :
    f.applyLines (Text.lines (line ++ '\n' :: cs')) = f.applyLines (Text.lines (line ++ '\n' :: cs)) := by
  rw [applyLines_line hn, applyLines_line hn]
  exact applyLines_congr rfl h

/-- A text whose first line that is not blank starts with neither a newline nor two slashes. -/
theorem applyLines_stop {blanks rest : List Char} {c : Char} (hb : ∀ c ∈ blanks, isSpace c = true)
    (hc : isSpace c = false) (hl : lead (c :: rest) ≠ .newline ∧ lead (c :: rest) ≠ .slashes)
    (f : Features) : f.applyLines (Text.lines (blanks ++ c :: rest)) = .ok f := by
  have hn : c ≠ '\n' := by
    rintro rfl
    exact hl.1 rfl
  have hblank : Text.isBlank c = false := by simpa [isSpace, hn] using hc
  have hblanks : ∀ c ∈ blanks, Text.isBlank c = true := fun c hm => by
    have := hb c hm
    simp only [isSpace, Bool.and_eq_true] at this
    exact this.1
  have hnotin : '\n' ∉ blanks := fun hm => by simpa [isSpace] using hb _ hm
  obtain ⟨line, hline, hrest⟩ := Text.line_cases rest
  -- what is behind the first character of the line
  have hslash : c = '/' → line.head? ≠ some '/' := by
    rintro rfl hh
    obtain ⟨ds, rfl⟩ := List.head?_eq_some_iff.1 hh
    rcases hrest with rfl | ⟨more, rfl⟩ <;> exact hl.2 rfl
  have hfirst : '\n' ∉ blanks ++ c :: line := by simp [hnotin, hline, Ne.symm hn]
  rcases hrest with rfl | ⟨more, rfl⟩
  · rw [applyLines_last hfirst, applyLines_code hblanks hblank hslash]
  · have hassoc : blanks ++ c :: (line ++ '\n' :: more) = (blanks ++ c :: line) ++ '\n' :: more := by
      simp
    rw [hassoc, applyLines_line hfirst, applyLines_code hblanks hblank hslash]

/-- Where there is code in front of the end of a line, what comes behind that does not matter. -/
theorem applyLines_front {quote : Char} (hq : isSpace quote = false ∧ quote ≠ '\n' ∧ quote ≠ '/')
    {front lineEnd : List Char} (hl : '\n' ∉ quote :: lineEnd) (h : ¬ Text.Quiet (front ++ quote :: lineEnd))
    (tail tail' : List Char) (f : Features) : f.applyLines (Text.lines (front ++ quote :: tail')) =
      f.applyLines (Text.lines (front ++ quote :: tail)) := by
  induction hlen : front.length using Nat.strongRecOn generalizing front f with
  | ind n ih =>
  subst hlen
  have hsplit := List.takeWhile_append_dropWhile (p := isSpace) (l := front)
  have hb : ∀ c ∈ front.takeWhile isSpace, isSpace c = true := fun c hc => List.mem_takeWhile_imp hc
  have hc := List.head?_dropWhile_not isSpace front
  generalize front.takeWhile isSpace = blanks, front.dropWhile isSpace = rest at hsplit hb hc
  subst hsplit
  have hmutes : ∀ c ∈ blanks, Text.isMute c = true := fun c hc => Text.isMute_space (hb c hc)
  have hnotin : '\n' ∉ blanks := fun hm => by simpa [isSpace] using hb _ hm
  -- the first line of code ends the settings
  have stop {c : Char} {more : List Char} (hc : isSpace c = false) (hn : c ≠ '\n')
      (hs : c = '/' → more.head? ≠ some '/') :
      f.applyLines (Text.lines (blanks ++ c :: more)) = .ok f := by
    refine applyLines_stop hb hc ⟨fun hlead => ?_, fun hlead => ?_⟩ f
    · obtain ⟨ds, hds⟩ := Scan.lead_newline hlead
      exact hn (List.cons.inj hds).1
    · obtain ⟨ds, hds⟩ := Scan.lead_slashes hlead
      obtain ⟨rfl, rfl⟩ := List.cons.inj hds
      exact hs rfl rfl
  cases rest with
  | nil =>
    have hstop (tail : List Char) : f.applyLines (Text.lines (blanks ++ quote :: tail)) = .ok f :=
      stop hq.1 hq.2.1 fun he => absurd he hq.2.2
    simp only [List.append_nil, hstop]
  | cons c rest =>
    have hc : isSpace c = false := by simpa using hc
    by_cases hn : c = '\n'
    · subst hn
      have hassoc (tail : List Char) : blanks ++ '\n' :: rest ++ quote :: tail =
          blanks ++ '\n' :: (rest ++ quote :: tail) := by simp
      simp only [hassoc] at h ⊢
      refine applyLines_rest hnotin (fun f => ih rest.length ?_ (fun hquiet => h ?_) f rfl) f
      · simp only [List.length_append, List.length_cons]
        omega
      · exact .mutes hmutes hquiet.newline
    by_cases hs : c = '/' ∧ rest.head? = some '/'
    · obtain ⟨rfl, hhead⟩ := hs
      obtain ⟨rest, rfl⟩ := List.head?_eq_some_iff.1 hhead
      obtain ⟨line, hline, rfl | ⟨more, rfl⟩⟩ := Text.line_cases rest
      · -- there is no code on the line
        have hcomment : '\n' ∉ rest ++ quote :: lineEnd := by
          rw [List.mem_append, not_or]
          exact ⟨hline, hl⟩
        exact absurd (Text.Quiet.mutes hmutes (.lastComment hcomment)) (by simpa using h)
      · have hassoc (tail : List Char) : blanks ++ '/' :: '/' :: (line ++ '\n' :: more) ++ quote :: tail =
            (blanks ++ '/' :: '/' :: line) ++ '\n' :: (more ++ quote :: tail) := by simp
        simp only [hassoc] at h ⊢
        refine applyLines_rest (by simp [hnotin, hline])
          (fun f => ih more.length ?_ (fun hquiet => h ?_) f rfl) f
        · simp only [List.length_append, List.length_cons]
          omega
        · rw [List.append_assoc]
          exact .mutes hmutes (.commentLine hline hquiet)
    · have hstop (tail : List Char) : f.applyLines (Text.lines (blanks ++ c :: rest ++ quote :: tail)) =
          .ok f := by
        rw [List.append_assoc]
        refine stop hc hn fun he hhead => hs ⟨he, ?_⟩
        cases rest with
        | nil => exact absurd (Option.some.inj hhead) hq.2.2
        | cons => exact hhead
      rw [hstop, hstop]

end Features

end StoryLang
