/-
  The fewest decimal digits that read back as the same double.

  Every double is the rounding of a whole interval of reals: half a unit in the last place to each
  side, half of that below a power of two, with the two ends included exactly when the significand
  is even.  A decimal in that interval reads back as the number.  For one digit, two, and so on up
  to seventeen, we look at the two neighbours of the number on the grid of decimals with so many
  digits; if a point of the grid lies in the interval then one of those two does.  The first grid
  with a hit wins, of two hits the nearer, and where they are equally near the format decides
  (`Tie`).

  All comparisons are between naturals.  In units of a quarter of the last place the number is
  `4 · significand`; `Grid` brings that unit and the step of the grid to a common measure.
-/
import Quadruple.Binary64
import Quadruple.Decimal.Digits

namespace Quadruple.Decimal

/-- Which of two equally near decimals is taken. -/
inductive Tie where
  | up
  | even
deriving DecidableEq

/-- A decimal `0.d₁d₂… · 10 ^ point`, its digits from the first that counts to the last. -/
structure Expansion where
  digits : List Char
  point : Int
deriving DecidableEq

/-- Two steps brought to a common measure: a quarter unit of the number, and the distance of the
grid. -/
structure Grid where
  quarter : Nat
  step : Nat

/-- The grid of multiples of `10 ^ t` beside the quarter units of numbers with power `q`. -/
def Grid.of (q t : Int) : Grid where
  quarter := Nat.pow 2 (q - 2).toNat * Nat.pow 10 (-t).toNat
  step := Nat.pow 10 t.toNat * Nat.pow 2 (2 - q).toNat

/-- The position of the decimal point of `m · 2 ^ q`: the `k` with `10 ^ (k - 1) ≤ m · 2 ^ q < 10 ^
k`. -/
def magnitude (m : Nat) (q : Int) : Int :=
  let num := m * Nat.pow 2 q.toNat
  let den := Nat.pow 2 (-q).toNat
  if den ≤ num then digitCount (num / den) else 1 - (digitCount ((den - 1) / num) : Int)

/-- The interval of a double in quarter units: its ends, and whether they belong to it. -/
structure Interval where
  lower : Nat
  upper : Nat
  closed : Bool

/-- The reals that round to `x`.  Below a power of two the doubles lie twice as dense, so there the
lower end is at half the distance. -/
def Interval.of (x : Binary64) : Interval where
  lower :=
    if x.fractionField = 0 ∧ 1 < x.exponentField then 4 * x.significand - 1
    else 4 * x.significand - 2
  upper := 4 * x.significand + 2
  closed := x.significand % 2 == 0

/-- Whether the `g`th point of a grid lies in an interval. -/
def Interval.holds (i : Interval) (s : Grid) (g : Nat) : Bool :=
  if i.closed then i.lower * s.quarter ≤ g * s.step && g * s.step ≤ i.upper * s.quarter
  else i.lower * s.quarter < g * s.step && g * s.step < i.upper * s.quarter

/-- The grid point that stands for the number, if one of its two neighbours reads back. -/
def neighbour? (tie : Tie) (x : Binary64) (t : Int) : Option Nat :=
  let s := Grid.of x.exponent t
  let i := Interval.of x
  let v := 4 * x.significand * s.quarter
  let g := v / s.step
  match i.holds s g, i.holds s (g + 1) with
  | false, false => none
  | true, false => some g
  | false, true => some (g + 1)
  | true, true =>
    let below := v - g * s.step
    let above := (g + 1) * s.step - v
    if below < above then some g
    else if above < below then some (g + 1)
    else match tie with
      | .up => some (g + 1)
      | .even => if g % 2 = 0 then some g else some (g + 1)

/-- Try grids of `n` digits and more, `left` of them; the result is the grid point and its power of
ten. -/
def search (tie : Tie) (x : Binary64) (k : Int) : Nat → Nat → Nat × Int
  | n, 0 => (0, k - n)
  | n, left + 1 =>
    match neighbour? tie x (k - n) with
    | some g => (g, k - n)
    | none => search tie x k (n + 1) left

/-- The shortest expansion of the magnitude of a finite number; zero has no digits. -/
def shortest (tie : Tie) (x : Binary64) : Expansion :=
  if x.significand = 0 then ⟨[], 0⟩
  else
    let k := magnitude x.significand x.exponent
    let (g, t) := search tie x k 1 17
    let ds := Nat.toDigits 10 g
    -- a neighbour may be a power of ten, which ends in a zero
    ⟨(ds.reverse.dropWhile (· == '0')).reverse, t + ds.length⟩

end Quadruple.Decimal
