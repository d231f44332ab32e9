import StackCompiler.Binary64.Basic
import StackCompiler.Text.Layout

/-!
# Writing real constants

A real constant is written with the fewest decimal digits that read back as the same number, and
with the digits nearest to it among those. Magnitudes from `10 ^ -4` to below `10 ^ 16` are written
positionally with at least one place, all others with an exponent.
-/

namespace StackCompiler.Binary64

/-- A finite number is a multiple of `10 ^ -gridPlaces`, and so is a quarter of its last place. -/
def gridPlaces : Nat := 1100

def gridUnit : Nat := Nat.pow 10 gridPlaces / Nat.pow 2 1076

/-- The interval of reals that round to a number, on the decimal grid. -/
structure Interval where
  lower : Nat
  value : Nat
  upper : Nat
  -- Whether the two ends round to the number as well.
  closed : Bool
deriving Repr

/-- The reals nearer to `m * 2 ^ (q - 1074)` than to its neighbours. Below a power of two the
neighbours are closer together. -/
def Interval.around (m q : Nat) : Interval :=
  let quarter := Nat.pow 2 q * gridUnit
  let below := if m = fractionBound ∧ q ≠ 0 then 1 else 2
  { lower := (4 * m - below) * quarter
    value := 4 * m * quarter
    upper := (4 * m + 2) * quarter
    closed := m % 2 = 0 }

def Interval.contains (i : Interval) (n : Nat) : Bool :=
  if i.closed then i.lower ≤ n && n ≤ i.upper else i.lower < n && n < i.upper

/-- The multiple of `step` that stands for the value: of the two next to it the one inside the
interval, of two inside the nearer one, and of two equally near the upper. -/
def Interval.nearest? (i : Interval) (step : Nat) : Option Nat :=
  let down := i.value / step
  let up := down + 1
  match i.contains (down * step), i.contains (up * step) with
  | true, true => some (if i.value - down * step < up * step - i.value then down else up)
  | true, false => some down
  | false, true => some up
  | false, false => none

/-- The first hit of `nearest?` among grids of 1, 2, … digits, at most `fuel` of them, with the
number of decimal places of its grid left of the base grid. -/
def Interval.shortest (i : Interval) : (fuel places : Nat) → Nat × Nat
  | 0, places => (i.value / Nat.pow 10 places, places)
  | fuel + 1, places =>
    match i.nearest? (Nat.pow 10 places) with
    | some d => (d, places)
    | none => shortest i fuel (places - 1)

/-- Significant digits and the place of the decimal point: `digits` `d₁d₂…` and `point` `p` stand
for `0.d₁d₂… * 10 ^ p`. -/
structure Decimal where
  digits : List Char
  point : Int
deriving Repr

def Decimal.ofGrid (n places : Nat) : Decimal :=
  let ds := Nat.toDigits 10 n
  { digits := (ds.reverse.dropWhile (· = '0')).reverse
    point := (ds.length + places : Nat) - (gridPlaces : Nat) }

/-- The shortest decimal that reads back as `m * 2 ^ (q - 1074)`. Seventeen digits always do. -/
def shortestDecimal (m q : Nat) : Decimal :=
  let i := Interval.around m q
  let places := (Nat.toDigits 10 i.value).length
  let (n, places) := i.shortest 17 (places - 1)
  Decimal.ofGrid n places

namespace Decimal

def positional (d : Decimal) : List Char :=
  if d.point ≤ 0 then '0' :: '.' :: (List.replicate (-d.point).toNat '0' ++ d.digits)
  else
    let whole := d.point.toNat
    let fraction := d.digits.drop whole
    (d.digits ++ List.replicate (whole - d.digits.length) '0').take whole ++
      '.' :: (if fraction.isEmpty then ['0'] else fraction)

/-- Notation with an exponent: one digit before the point, and no point if none follows. -/
def scientific (d : Decimal) : List Char :=
  let fraction := d.digits.drop 1
  d.digits.take 1 ++ (if fraction.isEmpty then [] else '.' :: fraction) ++
    'e' :: (toString (d.point - 1)).toList

/-- Positional notation covers `10 ^ -4` up to `10 ^ 16`. -/
def write (d : Decimal) : List Char :=
  if -4 < d.point ∧ d.point ≤ 16 then d.positional else d.scientific

end Decimal

def write (x : Binary64) : String :=
  if x.isNaN then "NaN"
  else
    let body :=
      if x.isInfinite then ['i', 'n', 'f']
      else if x.magnitude = 0 then ['0', '.', '0']
      else let (m, q) := x.decode; (shortestDecimal m q).write
    String.ofList (if x.isNegative then '-' :: body else body)

end StackCompiler.Binary64
