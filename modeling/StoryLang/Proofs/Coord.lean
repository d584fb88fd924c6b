/-
Coordinates and the texts that name them.

A coordinate is named by the number of its line, or by that, a point and its
running number (`ofText?_eq_some_iff`). Such a number may be written with a plus
sign and with zeros in front; a running number of zero may not be written at
all. A coordinate that fits reads back from its own text, and the texts of two
coordinates are different, whether they fit or not.
-/
import Mathlib.Data.List.Basic
import StoryLang.Coord
import StoryLang.Proofs.Text.Lines
import StoryLang.Proofs.Text.Number

namespace StoryLang.Coord

open Text

variable {c d : Coord} {s : String} {cs base seq : List Char} {n most : Nat}

/-- The line fits 64 bits, and the running number 32. -/
structure Fits (c : Coord) : Prop where
  base : c.base < UInt64.size
  seq : c.seq < UInt32.size

instance (c : Coord) : Decidable c.Fits :=
  decidable_of_iff (c.base < UInt64.size ∧ c.seq < UInt32.size)
    ⟨fun h => ⟨h.1, h.2⟩, fun h => ⟨h.base, h.seq⟩⟩

/-! ## Writing -/

theorem toList_text_line (h : c.seq = 0) : c.text.toList = Nat.toDigits 10 c.base := by
  rw [text, if_pos h, toList_toString]

theorem toList_text_synthetic (h : c.seq ≠ 0) :
    c.text.toList = Nat.toDigits 10 c.base ++ '.' :: Nat.toDigits 10 c.seq := by
  rw [text, if_neg h, String.toList_append, String.toList_append, toList_toString, toList_toString,
    List.append_assoc]
  rfl

theorem text_ne (c : Coord) : c.text ≠ "" := by
  intro h
  have hlist := congrArg String.toList h
  by_cases hzero : c.seq = 0
  · rw [toList_text_line hzero] at hlist
    exact (numeral_toDigits c.base).some hlist
  · rw [toList_text_synthetic hzero] at hlist
    simp at hlist

theorem point_notMem_toDigits (n : Nat) : '.' ∉ Nat.toDigits 10 n :=
  (numeral_toDigits n).notMem (by decide)

/-- What stands before and after the point of a text is found again. -/
theorem splitFirst?_text (c : Coord) : splitFirst? '.' c.text.toList =
    if c.seq = 0 then none else some (Nat.toDigits 10 c.base, Nat.toDigits 10 c.seq) := by
  split
  · rename_i h
    rw [toList_text_line h, splitFirst?_none (point_notMem_toDigits c.base)]
  · rename_i h
    rw [toList_text_synthetic h, splitFirst?_append (point_notMem_toDigits c.base)]

/-- Two coordinates are not written alike. -/
theorem text_inj (h : c.text = d.text) : c = d := by
  have hsplit := splitFirst?_text c
  rw [h, splitFirst?_text] at hsplit
  have hboth : c.base = d.base ∧ c.seq = d.seq := by
    split at hsplit <;> split at hsplit
    · rename_i hd hc
      have hlist := congrArg String.toList h
      rw [toList_text_line hc, toList_text_line hd] at hlist
      exact ⟨toDigits_inj hlist, hc.trans hd.symm⟩
    · cases hsplit
    · cases hsplit
    · obtain ⟨hbase, hseq⟩ := Prod.mk.inj (Option.some.inj hsplit)
      exact ⟨toDigits_inj hbase.symm, toDigits_inj hseq.symm⟩
  cases c
  cases d
  rw [Coord.mk.injEq]
  exact hboth

/-! ## Reading -/

theorem point_notMem (h : natural? most cs = some n) : '.' ∉ cs :=
  notMem_of_natural? h (by decide) (by decide)

/-- The texts that name a coordinate. -/
theorem ofText?_eq_some_iff : ofText? s = some c ↔
    (c.seq = 0 ∧ natural? maxUnsigned64 s.toList = some c.base) ∨
    (c.seq ≠ 0 ∧ ∃ base seq, s.toList = base ++ '.' :: seq ∧
      natural? maxUnsigned64 base = some c.base ∧ natural? maxUnsigned32 seq = some c.seq) := by
  obtain ⟨line, number⟩ := c
  unfold ofText?
  constructor
  · intro h
    split at h
    · obtain ⟨line', hline, hc⟩ := Option.map_eq_some_iff.1 h
      obtain ⟨rfl, rfl⟩ := Coord.mk.inj hc
      exact .inl ⟨rfl, hline⟩
    · rename_i base seq hsplit
      split at h
      · rename_i line' number' hline hnumber
        obtain ⟨rfl, rfl⟩ := Coord.mk.inj (Option.some.inj h)
        exact .inr ⟨Nat.succ_ne_zero _, base, seq, splitFirst?_some hsplit, hline, hnumber⟩
      · cases h
  · rintro (⟨hzero, hline⟩ | ⟨hne, base, seq, hs, hline, hnumber⟩)
    · obtain rfl : number = 0 := hzero
      rw [splitFirst?_none (point_notMem hline)]
      simp [hline, ofLine]
    · obtain ⟨k, rfl⟩ := Nat.exists_eq_succ_of_ne_zero hne
      rw [hs, splitFirst?_append (point_notMem hline)]
      simp [hline, hnumber]

/-- A coordinate that fits reads back from its text. -/
theorem ofText?_of_fits (h : c.Fits) : ofText? c.text = some c := by
  have hbase : c.base ≤ maxUnsigned64 := Nat.le_of_lt_succ h.base
  have hseq : c.seq ≤ maxUnsigned32 := Nat.le_of_lt_succ h.seq
  rw [ofText?_eq_some_iff]
  by_cases hzero : c.seq = 0
  · rw [toList_text_line hzero]
    exact .inl ⟨hzero, natural?_toDigits hbase⟩
  · rw [toList_text_synthetic hzero]
    exact .inr ⟨hzero, _, _, rfl, natural?_toDigits hbase, natural?_toDigits hseq⟩

/-- What a text names fits. -/
theorem fits_of_ofText? (h : ofText? s = some c) : c.Fits := by
  have hle {most n : Nat} {cs : List Char} (h : natural? most cs = some n) : n ≤ most :=
    (natural?_eq_some_iff.1 h).1
  rcases ofText?_eq_some_iff.1 h with ⟨hzero, hline⟩ | ⟨-, base, seq, -, hline, hnumber⟩
  · exact ⟨Nat.lt_succ_of_le (hle hline), by rw [hzero]; decide⟩
  · exact ⟨Nat.lt_succ_of_le (hle hline), Nat.lt_succ_of_le (hle hnumber)⟩

/-- A running number of zero is not written. -/
theorem ofText?_zero (base : List Char) (h : natural? maxUnsigned32 seq = some 0) :
    ofText? (String.ofList (base ++ '.' :: seq)) = none := by
  rw [Option.eq_none_iff_forall_ne_some]
  intro c hc
  rcases ofText?_eq_some_iff.1 hc with ⟨-, hline⟩ | ⟨hne, base', seq', hs, hline, hnumber⟩
  · exact point_notMem hline (by simp)
  · rw [String.toList_ofList, eq_comm,
      List.append_cons_inj_of_notMem (point_notMem hline) (point_notMem hnumber)] at hs
    obtain ⟨-, -, rfl⟩ := hs
    rw [h] at hnumber
    exact hne (Option.some.inj hnumber).symm

end StoryLang.Coord
