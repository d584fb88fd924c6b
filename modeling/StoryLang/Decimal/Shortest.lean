/-
The shortest decimal that reads back as a given number.

The decimals that read back as `m * 2 ^ e` are those between the middles to
its two neighbours, ends included when `m` is even. For one digit, two digits
and so on, only the two points of the decimal grid next to the number need to
be tried: if any point of the grid lies between the middles, one of these two
does. Of two hits the nearer is taken, of two equally near the even one.
-/
import StoryLang.Decimal.Binary64

namespace StoryLang.Binary64

/-- A decimal `digits * 10 ^ power`. -/
structure Decimal where
  digits : Nat
  power : Int
  deriving DecidableEq, Repr

/-- The number, its lower and its upper middle, over one denominator. -/
structure Interval where
  low : Nat
  value : Nat
  high : Nat
  den : Nat
  closed : Bool

/-- The decimals that read back as the number. Below a power of two the
neighbour is only half as far away. -/
def interval (x : Binary64) : Interval :=
  let lowStep := if x.mantissa = leastFull ∧ minExponent < x.exponent then 1 else 2
  let e := x.exponent - 2
  let up := if 0 ≤ e then Nat.pow 2 e.toNat else 1
  let down := if 0 ≤ e then 1 else Nat.pow 2 (-e).toNat
  { low := (4 * x.mantissa - lowStep) * up
    value := 4 * x.mantissa * up
    high := (4 * x.mantissa + 2) * up
    den := down
    closed := x.mantissa % 2 = 0 }

/-- Whether `d * 10 ^ power` lies in the interval. -/
def Interval.holds (i : Interval) (d : Nat) (power : Int) : Bool :=
  let v := if 0 ≤ power then d * Nat.pow 10 power.toNat * i.den else d * i.den
  let k := if 0 ≤ power then 1 else Nat.pow 10 (-power).toNat
  if i.closed then i.low * k ≤ v && v ≤ i.high * k else i.low * k < v && v < i.high * k

/-- The value over `10 ^ power`, as a fraction. -/
def Interval.scaled (i : Interval) (power : Int) : Nat × Nat :=
  if 0 ≤ power then (i.value, i.den * Nat.pow 10 power.toNat)
  else (i.value * Nat.pow 10 (-power).toNat, i.den)

/-- The better of the two neighbours on the grid of `10 ^ power`, if one reads back. -/
def Interval.onGrid? (i : Interval) (power : Int) : Option Decimal :=
  let (n, d) := i.scaled power
  let q := n / d
  let r := n % d
  let below := i.holds q power && 0 < q
  let above := i.holds (q + 1) power
  let preferBelow := 2 * r < d || (2 * r == d && q % 2 == 0)
  if below && (preferBelow || !above) then some ⟨q, power⟩
  else if above then some ⟨q + 1, power⟩
  else none

/-- The number of decimal digits before the point of `num / den`, minus what
leading zeros there are after it: `10 ^ (k - 1) ≤ num / den < 10 ^ k`. -/
def magnitude (num den : Nat) : Int :=
  let guess : Int := ((num.log2 : Int) - den.log2) * 30103 / 100000
  let reaches (k : Int) : Bool :=
    if 0 ≤ k then decide (den * Nat.pow 10 k.toNat ≤ num)
    else decide (den ≤ num * Nat.pow 10 (-k).toNat)
  let up := if reaches guess then guess + 1 else guess
  let up := if reaches up then up + 1 else up
  if reaches (up - 1) then up else up - 1

/-- The first grid with a hit, from `count` digits on. Seventeen digits always hit. -/
def Interval.search (i : Interval) (size : Int) : Nat → Nat → Decimal
  | 0, count => ⟨(i.scaled (size - count)).1 / (i.scaled (size - count)).2, size - count⟩
  | tries + 1, count =>
    (i.onGrid? (size - count)).getD (i.search size tries (count + 1))

/-- The decimal without zeros at its end. -/
def Decimal.strip : Nat → Decimal → Decimal
  | 0, d => d
  | fuel + 1, d =>
    if d.digits % 10 = 0 ∧ d.digits ≠ 0 then Decimal.strip fuel ⟨d.digits / 10, d.power + 1⟩ else d

/-- The shortest decimal that reads back as a number other than zero. -/
def shortest (x : Binary64) : Decimal :=
  let i := x.interval
  Decimal.strip 20 (i.search (magnitude i.value i.den) 17 1)

/-- How numbers are written: plain between `10 ^ -5` and `10 ^ 16`, with at
least one digit after the point, and otherwise with one digit before the point
and an exponent with its sign. -/
structure Format where
  /-- The greatest number of digits before the point. -/
  plainBefore : Int
  /-- The greatest number of zeros after the point. -/
  plainZeros : Int

/-- The format of every number the compiler writes. -/
def format : Format := ⟨16, 4⟩

/-- The unsigned text of a decimal. -/
def Decimal.text (f : Format) (d : Decimal) : String :=
  let ds := Nat.toDigits 10 d.digits
  let point : Int := ds.length + d.power
  let zeros (n : Int) : List Char := List.replicate n.toNat '0'
  if 0 ≤ d.power ∧ point ≤ f.plainBefore then
    String.ofList (ds ++ zeros d.power ++ ['.', '0'])
  else if 0 < point ∧ point ≤ f.plainBefore then
    String.ofList (ds.take point.toNat ++ '.' :: ds.drop point.toNat)
  else if -f.plainZeros ≤ point ∧ point ≤ 0 then
    String.ofList ('0' :: '.' :: zeros (-point) ++ ds)
  else
    let front := match ds with
      | [] => []
      | [d] => [d]
      | d :: rest => d :: '.' :: rest
    let exponent := point - 1
    let sign := if exponent < 0 then "-" else "+"
    String.ofList front ++ "e" ++ sign ++ toString exponent.natAbs

/-- The text of a number: a zero has one digit on each side of the point. -/
def text (x : Binary64) : String :=
  let sign := if x.negative then "-" else ""
  if x.mantissa = 0 then sign ++ "0.0" else sign ++ x.shortest.text format

end StoryLang.Binary64
