/-
Numbers of the binary floating point format of 64 bits, in exact arithmetic.

A finite number is `mantissa * 2 ^ exponent` with a sign. The mantissa has at
most 53 bits and the exponent is at least -1074; each number is kept with the
one pair where the mantissa has 53 bits or the exponent is -1074. A decimal is
read as the nearest number, a half going to the even mantissa.

A literal is digits with an optional point and an optional exponent, or one of
the words for infinity and for what is not a number.
-/
import StoryLang.Text.Number

namespace StoryLang

/-- A finite number of the format. -/
structure Binary64 where
  negative : Bool
  mantissa : Nat
  exponent : Int
  deriving DecidableEq, Repr

namespace Binary64

/-- The least exponent of the format. -/
def minExponent : Int := -1074

/-- The greatest exponent of the format. -/
def maxExponent : Int := 971

/-- The least mantissa of 53 bits. -/
def leastFull : Nat := 0x10000000000000

/-- The finite number that is furthest from zero. -/
def greatest (negative : Bool) : Binary64 := ⟨negative, 2 * leastFull - 1, maxExponent⟩

/-- `num / den * 2 ^ (-e)` as a fraction. -/
def scale (num den : Nat) (e : Int) : Nat × Nat :=
  if 0 ≤ e then (num, den * Nat.pow 2 e.toNat) else (num * Nat.pow 2 (-e).toNat, den)

/-- The whole number nearest to a fraction, a half going to the even one. -/
def roundEven (num den : Nat) : Nat :=
  let q := num / den
  let r := num % den
  if 2 * r < den then q
  else if den < 2 * r then q + 1
  else if q % 2 = 0 then q else q + 1

/-- The exponent at which the mantissa of `num / den` has 53 bits, or the least one. -/
def exponentOf (num den : Nat) : Int :=
  let guess : Int := (num.log2 : Int) - den.log2 - 52
  let (n, d) := scale num den guess
  max minExponent (if n / d < leastFull then guess - 1 else guess)

/-- The number nearest to the fraction `num / den`; none past the greatest one. -/
def ofFraction? (negative : Bool) (num den : Nat) : Option Binary64 :=
  if num = 0 then some ⟨negative, 0, minExponent⟩
  else
    let e := exponentOf num den
    let (n, d) := scale num den e
    let m := roundEven n d
    let (m, e) := if m = 2 * leastFull then (leastFull, e + 1) else (m, e)
    if maxExponent < e then none else some ⟨negative, m, e⟩

/-- The number nearest to `digits * 10 ^ power`; none past the greatest one.
`count` is the number of digits. A power far outside the format's range
decides by itself, so that no great power of ten is ever computed. -/
def ofDecimal? (negative : Bool) (digits count : Nat) (power : Int) : Option Binary64 :=
  if digits = 0 ∨ power + count < -330 then some ⟨negative, 0, minExponent⟩
  else if 320 < power + Nat.log2 digits / 4 then none
  else if 0 ≤ power then ofFraction? negative (digits * Nat.pow 10 power.toNat) 1
  else ofFraction? negative digits (Nat.pow 10 (-power).toNat)

end Binary64

end StoryLang

namespace StoryLang.Binary64

/-- What a decimal literal stands for. -/
inductive Literal where
  | finite (x : Binary64)
  | infinite
  | notANumber
  deriving DecidableEq, Repr

/-- The finite number of a literal, if it has one. -/
def Literal.finite? : Literal → Option Binary64
  | .finite x => some x
  | _ => none

/-- Small and capital letters of ASCII are the same. -/
def lower (c : Char) : Char := if 'A' ≤ c ∧ c ≤ 'Z' then Char.ofNat (c.toNat + 32) else c

/-- The value of an exponent without its letter: a sign and at least one digit. -/
def exponent? : List Char → Option Int
  | '-' :: ds => (Text.digits? ds).map fun n => -(n : Int)
  | '+' :: ds => (Text.digits? ds).map Int.ofNat
  | ds => (Text.digits? ds).map Int.ofNat

/-- The digits of an unsigned literal before the point and after it, and the
text of its exponent if it has one. There is a digit on one side of the point. -/
def parts? (cs : List Char) : Option (List Char × List Char × Option (List Char)) :=
  let whole := cs.takeWhile Text.isDigit
  let rest := cs.dropWhile Text.isDigit
  let (fraction, rest) := match rest with
    | '.' :: more => (more.takeWhile Text.isDigit, more.dropWhile Text.isDigit)
    | _ => ([], rest)
  if whole.isEmpty && fraction.isEmpty then none
  else match rest with
    | [] => some (whole, fraction, none)
    | c :: more => if lower c = 'e' then some (whole, fraction, some more) else none

/-- An unsigned literal made of digits. -/
def number? (negative : Bool) (cs : List Char) : Option Literal := do
  let (whole, fraction, power) ← parts? cs
  let power ← match power with
    | none => some 0
    | some text => exponent? text
  let digits := (Text.digitsValue? 0 (whole ++ fraction)).getD 0
  let count := (whole ++ fraction).length
  match ofDecimal? negative digits count (power - fraction.length) with
  | some x => some (.finite x)
  | none => some .infinite

/-- An unsigned literal, of digits or one of the words. -/
def unsigned? (negative : Bool) (cs : List Char) : Option Literal :=
  match String.ofList (cs.map lower) with
  | "inf" | "infinity" => some .infinite
  | "nan" => some .notANumber
  | _ => number? negative cs

/-- A decimal literal with an optional sign. -/
def literal? : List Char → Option Literal
  | '-' :: cs => unsigned? true cs
  | '+' :: cs => unsigned? false cs
  | cs => unsigned? false cs

end StoryLang.Binary64
