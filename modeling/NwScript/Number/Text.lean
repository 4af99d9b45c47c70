-- How a single-precision number is written: its shortest digits, positionally in the middle
-- range and with an exponent outside of it.
import NwScript.Number.Shortest

namespace NwScript

/-- Which decimal exponents are written out positionally. -/
structure NumberFormat where
  lowest : Int
  highest : Int

/-- The digits of a natural number, most significant first. -/
def decimalDigits (n : Nat) : List Char := Nat.toDigits 10 n

namespace Decimal

/-- The exponent of the leading digit. -/
def leading (d : Decimal) : Int := (decimalDigits d.digits).length - 1 + d.power

/-- Written out without an exponent, with at least one place on either side of the point. -/
def positional (d : Decimal) : List Char :=
  let digits := decimalDigits d.digits
  if 0 ≤ d.power then digits ++ List.replicate d.power.toNat '0' ++ ['.', '0']
  else if 0 ≤ d.leading then
    let whole := d.leading.toNat + 1
    digits.take whole ++ '.' :: digits.drop whole
  else ['0', '.'] ++ List.replicate (-d.leading - 1).toNat '0' ++ digits

/-- One digit, the others after a point if there are any, and the exponent. -/
def scientific (d : Decimal) : List Char :=
  let mantissa := match decimalDigits d.digits with
    | [] => []
    | [c] => [c]
    | c :: more => c :: '.' :: more
  mantissa ++ 'e' :: (toString d.leading).toList

def write (format : NumberFormat) (d : Decimal) : List Char :=
  if format.lowest ≤ d.leading ∧ d.leading ≤ format.highest then d.positional else d.scientific

end Decimal

namespace Binary32

/-- Numbers from `0.0001` up to but not including `10 ^ 16` are written out. -/
def format : NumberFormat := ⟨-4, 15⟩

/-- The number apart from its sign. -/
def magnitude (x : Binary32) : List Char :=
  if x.isInfinite then ['i', 'n', 'f']
  else if x.isZero then ['0', '.', '0']
  else x.shortest.write format

/-- A NaN is written without its sign; everything else, zero included, with it. -/
def text (x : Binary32) : String :=
  if x.isNaN then "NaN"
  else String.ofList (if x.negative then '-' :: x.magnitude else x.magnitude)

end Binary32

end NwScript
