-- The shortest decimal that reads back as a given single-precision number, and of the shortest
-- ones the nearest.
import NwScript.Number.Binary32

namespace NwScript

/-- The decimal `digits * 10 ^ power`. -/
structure Decimal where
  digits : Nat
  power : Int
deriving DecidableEq

/-- A positive number `value * 2 ^ scale` with the interval of reals that round to it, all three
in the same unit. -/
structure Rounding where
  low : Nat
  value : Nat
  high : Nat
  scale : Int
  /-- Whether the ends themselves round to the number. -/
  closed : Bool

namespace Rounding

/-- Whether the decimal with the given multiple of `10 ^ power` lies in the interval, where a unit
of the interval and of the grid are `unit` and `grid` in a common measure. -/
def holds (r : Rounding) (unit grid n : Nat) : Bool :=
  if r.closed then r.low * unit ≤ n * grid && n * grid ≤ r.high * unit
  else r.low * unit < n * grid && n * grid < r.high * unit

/-- The size of a unit of the interval, in a measure that has room for `10 ^ power`. -/
def unit (r : Rounding) (power : Int) : Nat := Nat.pow 2 r.scale.toNat * Nat.pow 10 (-power).toNat

/-- The size of `10 ^ power` in the same measure. -/
def grid (r : Rounding) (power : Int) : Nat := Nat.pow 2 (-r.scale).toNat * Nat.pow 10 power.toNat

/-- The multiple of `10 ^ power` that stands for the number on that grid, if there is one: of the
neighbours below and above those that round to the number, and of two the nearer, a tie going up. -/
def onGrid (r : Rounding) (power : Int) : Option Nat :=
  let unit := r.unit power
  let grid := r.grid power
  let below := r.value * unit / grid
  let up := 2 * (r.value * unit - below * grid) ≥ grid
  match r.holds unit grid below, r.holds unit grid (below + 1) with
  | true, true => some (if up then below + 1 else below)
  | true, false => some below
  | false, true => some (below + 1)
  | false, false => none

/-- The first grid that has a multiple for the number, trying one finer grid after another. -/
def search (r : Rounding) : Nat → Int → Decimal
  | 0, power => ⟨(r.onGrid power).getD 0, power⟩
  | finer + 1, power =>
    match r.onGrid power with
    | some n => ⟨n, power⟩
    | none => r.search finer (power - 1)

end Rounding

namespace Binary32

/-- The interval around a finite positive number, in quarters of its last place. Below a power of
two the numbers lie twice as dense. -/
def rounding (x : Binary32) : Rounding where
  low := 4 * x.significand - (if x.exponent ≠ 0 ∧ x.fraction = 0 then 1 else 2)
  value := 4 * x.significand
  high := 4 * x.significand + 2
  scale := x.scale - 2
  closed := x.significand % 2 == 0

/-- The shortest decimal of a finite number other than zero, apart from its sign. The largest
number lies below `10 ^ 39`, and nine digits always tell two numbers apart. -/
def shortest (x : Binary32) : Decimal := x.rounding.search 100 39

end Binary32

end NwScript
