/-
Which texts are numbers, and that a number reads back from its digits.

A text is a number if it has digits only, at least one, with or without a plus
sign in front, and is not past the limit (`natural?_eq_some_iff`). Zeros in
front do not count, so a number has many texts. The one that is written for it
has no such zeros.
-/
import StoryLang.Text.Number

namespace StoryLang.Text

variable {cs ds : List Char} {n most acc : Nat}

/-- The digits of a number, with or without zeros in front. -/
structure Numeral (cs : List Char) (n : Nat) : Prop where
  some : cs ≠ []
  digits : ∀ c ∈ cs, c.isDigit = true
  value : Nat.ofDigitChars 10 cs 0 = n

theorem Numeral.notMem (h : Numeral cs n) {c : Char} (hc : c.isDigit = false) : c ∉ cs := fun hm => by
  simp [h.digits c hm] at hc

/-! ## Reading -/

theorem digitsValue?_eq_some_iff : digitsValue? acc cs = some n ↔
    (∀ c ∈ cs, c.isDigit = true) ∧ Nat.ofDigitChars 10 cs acc = n := by
  induction cs generalizing acc with
  | nil => simp [digitsValue?]
  | cons c cs ih =>
    have hdigit : isDigit c = c.isDigit := rfl
    rw [digitsValue?, hdigit, List.forall_mem_cons, Nat.ofDigitChars_cons]
    split
    · rename_i hc
      rw [ih, Nat.mul_comm acc 10]
      simp [hc]
    · rename_i hc
      simp [hc]

theorem digits?_eq_some_iff : digits? cs = some n ↔ Numeral cs n := by
  cases cs with
  | nil => exact ⟨nofun, fun h => absurd rfl h.some⟩
  | cons c cs =>
    rw [digits?, digitsValue?_eq_some_iff]
    exact ⟨fun h => ⟨List.cons_ne_nil c cs, h.1, h.2⟩, fun h => ⟨h.digits, h.value⟩⟩

/-- A number within a limit is written as its digits, or as a plus sign and its digits. -/
theorem natural?_eq_some_iff : natural? most cs = some n ↔
    n ≤ most ∧ (Numeral cs n ∨ ∃ ds, cs = '+' :: ds ∧ Numeral ds n) := by
  unfold natural?
  dsimp only
  rw [Option.filter_eq_some_iff, decide_eq_true_eq, and_comm]
  refine and_congr_right fun _ => ?_
  split
  · rename_i ds
    have hplus : ¬ Numeral ('+' :: ds) n := fun h => h.notMem (by decide) List.mem_cons_self
    simp [digits?_eq_some_iff, hplus]
  · rename_i hplus
    rw [digits?_eq_some_iff]
    exact ⟨.inl, fun h => h.resolve_right fun ⟨ds, hds, _⟩ => hplus ds hds⟩

/-- A number has no other characters than digits and a plus sign. -/
theorem notMem_of_natural? (h : natural? most cs = some n) {c : Char} (hc : c.isDigit = false)
    (hp : c ≠ '+') : c ∉ cs := by
  obtain ⟨-, hds | ⟨ds, rfl, hds⟩⟩ := natural?_eq_some_iff.1 h
  · exact hds.notMem hc
  · simp [hp, hds.notMem hc]

/-! ## Writing -/

theorem numeral_toDigits (n : Nat) : Numeral (Nat.toDigits 10 n) n where
  some := Nat.toDigits_ne_nil
  digits _ := Nat.isDigit_of_mem_toDigits (by decide) (by decide)
  value := Nat.ofDigitChars_ten_toDigits

/-- A number reads back from its digits up to the limit. -/
theorem natural?_toDigits (h : n ≤ most) : natural? most (Nat.toDigits 10 n) = some n :=
  natural?_eq_some_iff.2 ⟨h, .inl (numeral_toDigits n)⟩

theorem toDigits_inj {m n : Nat} (h : Nat.toDigits 10 m = Nat.toDigits 10 n) : m = n := by
  rw [← (numeral_toDigits m).value, h, (numeral_toDigits n).value]

theorem toList_toString (n : Nat) : (toString n).toList = Nat.toDigits 10 n := by
  rw [Nat.toString_eq_repr, Nat.toList_repr]

end StoryLang.Text
