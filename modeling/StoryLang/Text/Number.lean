/-
Whole numbers written in decimal digits, read within a limit.

A number may have a plus sign in front, and one that may be negative a minus
sign. There is at least one digit, every digit is ASCII, and a number past
the limit is no number.
-/

namespace StoryLang.Text

/-- An ASCII decimal digit. -/
def isDigit (c : Char) : Bool := '0' ≤ c && c ≤ '9'

/-- The value of a run of digits, continuing after the value `acc`. -/
def digitsValue? : Nat → List Char → Option Nat
  | acc, [] => some acc
  | acc, c :: cs =>
    if isDigit c then digitsValue? (acc * 10 + (c.toNat - 48)) cs else none

/-- The value of a non-empty run of digits. -/
def digits? : List Char → Option Nat
  | [] => none
  | c :: cs => digitsValue? 0 (c :: cs)

/-- A number of at most `most`, with or without a plus sign. -/
def natural? (most : Nat) (cs : List Char) : Option Nat :=
  let digits := match cs with
    | '+' :: rest => rest
    | _ => cs
  (digits? digits).filter (· ≤ most)

/-- The greatest number of 32 bits. -/
def maxUnsigned32 : Nat := 0xFFFFFFFF

/-- The greatest number of 64 bits. -/
def maxUnsigned64 : Nat := 0xFFFFFFFFFFFFFFFF

/-- The greatest number of 64 bits with a sign. The least one is one further from zero. -/
def maxSigned64 : Nat := 0x7FFFFFFFFFFFFFFF

/-- A number that fits 64 bits with a sign. -/
def signed64? : List Char → Option Int
  | '-' :: rest => (digits? rest).filter (· ≤ maxSigned64 + 1) |>.map fun n => -(n : Int)
  | cs => (natural? maxSigned64 cs).map Int.ofNat

end StoryLang.Text
