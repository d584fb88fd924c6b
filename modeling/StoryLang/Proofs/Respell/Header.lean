/-
The settings at the start of a text whose keywords are spelled anew.

Settings stand in comments, and in front of them there are blank lines and
other comments only. All that is copied, and the first line of code starts
again with what is neither.
-/
import StoryLang.Proofs.Features
import StoryLang.Proofs.Respell.Scan

namespace StoryLang

namespace Respell

open Features (applyLines_rest applyLines_stop)
open Scan (lead lead_newline lead_slashes)
open Text (isSpace)

variable {m : ScanMode} {spell : Keyword → String}

theorem text_space {c : Char} (hc : isSpace c = true) (cs : List Char) :
    text m spell (c :: cs) = c :: text m spell cs := by
  have hb : Text.isBlank c = true := by
    simp only [isSpace, Bool.and_eq_true] at hc
    exact hc.1
  refine text_plain ?_ ?_ cs
  · cases hw : Grammar.isWordStart c with
    | false => rfl
    | true => simp [Text.isBlank_word hw] at hb
  · refine ⟨?_, ?_, ?_, ?_, ?_⟩ <;> rintro rfl <;> exact absurd hb (by decide)

/-- A comment is copied to the end of its line. -/
theorem text_commentLine {line : List Char} (hn : '\n' ∉ line) (more : List Char) :
    text m spell ('/' :: '/' :: line ++ '\n' :: more) =
      '/' :: '/' :: line ++ '\n' :: text m spell more := by
  have hne := Text.ne_newline (show '\n' ∉ '/' :: '/' :: line by simpa using hn)
  rw [List.cons_append, text_comment (.inr ⟨rfl, rfl⟩), ← List.cons_append,
    List.takeWhile_append_of_pos hne, List.dropWhile_append_of_pos hne]
  simp [text_newline]

theorem text_lastComment {line : List Char} (hn : '\n' ∉ line) :
    text m spell ('/' :: '/' :: line) = '/' :: '/' :: line := by
  have hne := Text.ne_newline (show '\n' ∉ '/' :: '/' :: line by simpa using hn)
  rw [text_comment (.inr ⟨rfl, rfl⟩), List.takeWhile_eq_self_iff.2 hne,
    List.dropWhile_eq_nil_iff.2 hne, text_nil, List.append_nil]

/-- The settings at the start of a text are the same. -/
theorem applyLines_text (hs : Words spell) (f : Features) (cs : List Char) :
    f.applyLines (Text.lines (text m spell cs)) = f.applyLines (Text.lines cs) := by
  induction hlen : cs.length using Nat.strongRecOn generalizing cs f with
  | ind n ih =>
  subst hlen
  obtain ⟨-, htext⟩ := takeWhile_text (m := m) hs (fun c hc cs => text_space hc cs)
    (fun c hc => by simp [isSpace, Text.isBlank_word hc]) cs
  have hsplit := List.takeWhile_append_dropWhile (p := isSpace) (l := cs)
  have hb : ∀ c ∈ cs.takeWhile isSpace, isSpace c = true := fun c hc => List.mem_takeWhile_imp hc
  have hc := List.head?_dropWhile_not isSpace cs
  rw [htext]
  generalize cs.takeWhile isSpace = blanks, cs.dropWhile isSpace = rest at hsplit hb hc
  subst hsplit
  have hnotin : '\n' ∉ blanks := fun hm => by simpa [isSpace] using hb _ hm
  cases rest with
  | nil => rfl
  | cons c rest =>
    have hc : isSpace c = false := by simpa using hc
    have hlead := lead_text (m := m) hs (c :: rest)
    have later {more : List Char} (hless : more.length < (blanks ++ c :: rest).length) (f : Features) :=
      ih _ hless f more rfl
    by_cases hnewline : lead (c :: rest) = .newline
    · obtain ⟨more, hmore⟩ := lead_newline hnewline
      obtain ⟨rfl, rfl⟩ := List.cons.inj hmore
      rw [text_newline]
      exact applyLines_rest hnotin (later (by simp only [List.length_append, List.length_cons]; omega)) f
    by_cases hslashes : lead (c :: rest) = .slashes
    · obtain ⟨more, hmore⟩ := lead_slashes hslashes
      rw [hmore]
      rw [hmore] at later
      obtain ⟨line, hline, hrest⟩ := Text.line_cases more
      have hcomment : '\n' ∉ blanks ++ '/' :: '/' :: line := by simp [hnotin, hline]
      rcases hrest with rfl | ⟨more, rfl⟩
      · rw [text_lastComment hline]
      · have hassoc (tail : List Char) : blanks ++ ('/' :: '/' :: line ++ '\n' :: tail) =
            (blanks ++ '/' :: '/' :: line) ++ '\n' :: tail := by simp
        rw [← List.cons_append, ← List.cons_append, text_commentLine hline, hassoc, hassoc]
        refine applyLines_rest hcomment (later ?_) f
        simp only [List.length_append, List.length_cons]
        omega
    rw [applyLines_stop hb hc ⟨hnewline, hslashes⟩]
    have hstart := text_start (m := m) hs (c :: rest)
    revert hstart hlead
    generalize text m spell (c :: rest) = new
    rintro hlead (_ | _ | ⟨_, _, old, new⟩)
    · exact applyLines_stop hb hc (hlead ▸ ⟨hnewline, hslashes⟩) f
    · exact applyLines_stop hb (by simp [isSpace, Text.isBlank_word new]) (hlead ▸ ⟨hnewline, hslashes⟩) f

theorem applyHeader_text (hs : Words spell) (f : Features) (cs : List Char) :
    f.applyHeader (text m spell cs) = f.applyHeader cs := by
  have hmark : Grammar.isWordStart Text.byteOrderMark = false := by decide
  obtain ⟨hfront, htext⟩ := takeWhile_text (m := m) (p := (· = Text.byteOrderMark)) hs
    (fun c hc cs => by
      obtain rfl : c = Text.byteOrderMark := of_decide_eq_true hc
      exact text_plain hmark (by decide) cs)
    (fun c hc => decide_eq_false fun h => by simp [h, hmark] at hc) cs
  have hdrop : (text m spell cs).dropWhile (· = Text.byteOrderMark) =
      text m spell (cs.dropWhile (· = Text.byteOrderMark)) := by
    have hsplit := List.takeWhile_append_dropWhile (p := (· = Text.byteOrderMark)) (l := text m spell cs)
    rw [hfront] at hsplit
    exact List.append_cancel_left (hsplit.trans htext)
  unfold Features.applyHeader
  rw [hdrop, applyLines_text hs]

end Respell

end StoryLang
