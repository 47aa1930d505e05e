import NetPlan.Single

/-!
# Single/Decimal — the fewest digits that read back

`Decimal.shortest` walks the decimal grids `10 ^ e` from coarse to fine and stops at the first one
with a point in the rounding interval of the number; of the two neighbours on that grid it takes
the nearer one, and the upper one on a tie.  `Single.text` writes the result positionally: never an
exponent, no point without a fraction.
-/

namespace NetPlan

/-- A positive decimal `digits * 10 ^ exponent`. -/
structure Decimal where
  digits : Nat
  exponent : Int
  deriving DecidableEq

namespace Decimal

/-- A positive rational, kept as a fraction. -/
structure Ratio where
  num : Nat
  den : Nat

/-- `n * 2 ^ e` as a fraction. -/
def Ratio.ofBinary (n : Nat) (e : Int) : Ratio :=
  if 0 ≤ e then ⟨n * Nat.pow 2 e.toNat, 1⟩ else ⟨n, Nat.pow 2 (-e).toNat⟩

/-- `r / 10 ^ e` as a fraction. -/
def Ratio.onGrid (r : Ratio) (e : Int) : Ratio :=
  if 0 ≤ e then ⟨r.num, r.den * Nat.pow 10 e.toNat⟩ else ⟨r.num * Nat.pow 10 (-e).toNat, r.den⟩

/-- The reals that round to a number, in quarter units of its last place: `low`, `mid`, `high`.
The ends belong to the interval when the significand is even. -/
structure Interval where
  low : Nat
  mid : Nat
  high : Nat
  closed : Bool
  exponent : Int

/-- The interval of a finite non-zero magnitude.  Below a power of two the grid is twice as fine. -/
def Interval.of (a : Single) : Interval :=
  let m := a.significand
  let low := if a.fractionField = 0 ∧ 1 < a.exponentField then 4 * m - 1 else 4 * m - 2
  ⟨low, 4 * m, 4 * m + 2, m % 2 = 0, a.scale - 2⟩

/-- Whether the grid point `d * 10 ^ e` lies in the interval. -/
def Interval.contains (i : Interval) (d : Nat) (e : Int) : Bool :=
  let low := (Ratio.ofBinary i.low i.exponent).onGrid e
  let high := (Ratio.ofBinary i.high i.exponent).onGrid e
  if i.closed then low.num ≤ d * low.den ∧ d * high.den ≤ high.num
  else low.num < d * low.den ∧ d * high.den < high.num

/-- The better of the number's two neighbours on the grid `10 ^ e`, if either reads back. -/
def Interval.pick? (i : Interval) (e : Int) : Option Nat :=
  let mid := (Ratio.ofBinary i.mid i.exponent).onGrid e
  let d := mid.num / mid.den
  match i.contains d e, i.contains (d + 1) e with
  | true, true => if 2 * (mid.num - d * mid.den) < mid.den then some d else some (d + 1)
  | true, false => some d
  | false, true => some (d + 1)
  | false, false => none

/-- The first grid that holds a decimal, among `steps + 1` grids from `10 ^ e` downwards. -/
def Interval.search (i : Interval) (e : Int) : Nat → Decimal
  | 0 => ⟨(i.pick? e).getD 0, e⟩
  | steps + 1 =>
    match i.pick? e with
    | some d => ⟨d, e⟩
    | none => i.search (e - 1) steps

/-- Shortest decimal of a finite non-zero magnitude.  A single lies below `10 ^ 39`, and nine
significant digits always read back, so the walk from `10 ^ 39` to `10 ^ -54` meets a grid. -/
def shortest (a : Single) : Decimal := (Interval.of a).search 39 93

/-- Positional text: trailing zeros for a positive exponent, a point for a negative one. -/
def text (d : Decimal) : String :=
  let ds := Nat.toDigits 10 d.digits
  if 0 ≤ d.exponent then String.ofList (ds ++ List.replicate d.exponent.toNat '0')
  else
    let places := (-d.exponent).toNat
    let padded := List.replicate (places + 1 - ds.length) '0' ++ ds
    let whole := padded.length - places
    String.ofList (padded.take whole ++ '.' :: padded.drop whole)

end Decimal

/-- Text of a number: the fewest digits that read back, positional, with the words `NaN` and
`inf`. -/
def Single.text (a : Single) : String :=
  let sign := if a.isNegative then "-" else ""
  if a.isNaN then "NaN"
  else if a.isInfinite then sign ++ "inf"
  else if a.significand = 0 then sign ++ "0"
  else sign ++ (Decimal.shortest a).text

end NetPlan
