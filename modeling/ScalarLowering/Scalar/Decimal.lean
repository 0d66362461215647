import ScalarLowering.Scalar.FloatFormat

/-! Decimal text of floats: the fewest digits that read back as the same value. -/

namespace ScalarLowering

/-- The number `digits * 10 ^ exponent`. -/
structure Decimal where
  digits : Nat
  exponent : Int
  deriving DecidableEq

/-- A positive number `value / 4 * 2 ^ scale` with the interval around it, from `low` to
`high` in the same unit, of the numbers that round to it. -/
structure RoundingInterval where
  value : Nat
  low : Nat
  high : Nat
  scale : Int
  /-- Whether the ends round to the value as well. -/
  closed : Bool
  deriving DecidableEq

namespace RoundingInterval

/-- The interval of a finite float. It ends half way to the neighbours; below a power of
two the neighbour is half as far. -/
def ofFloat (f : FloatFormat) (word : UInt64) : RoundingInterval :=
  let m := f.significand word
  let below := if f.exponent word ≠ 0 ∧ f.fraction word = 0 then 1 else 2
  { value := 4 * m, low := 4 * m - below, high := 4 * m + 2, scale := f.scale word - 2,
    closed := m % 2 = 0 }

/-- The point of the grid of step `10 ^ e` that lies in the interval. Of two points the
nearer is taken, and half way the upper. -/
def gridPoint? (i : RoundingInterval) (e : Int) : Option Decimal :=
  let up := Nat.pow 2 i.scale.toNat * Nat.pow 10 (-e).toNat
  let unit := Nat.pow 10 e.toNat * Nat.pow 2 (-i.scale).toNat
  let inside (n : Nat) : Bool :=
    if i.closed then i.low * up ≤ n * unit && n * unit ≤ i.high * up
    else i.low * up < n * unit && n * unit < i.high * up
  let below := i.value * up / unit
  let nearer := if 2 * (i.value * up % unit) < unit then below else below + 1
  match inside below, inside (below + 1) with
  | true, true => some ⟨nearer, e⟩
  | true, false => some ⟨below, e⟩
  | false, true => some ⟨below + 1, e⟩
  | false, false => none

/-- The exponents of the grids, coarsest first. They span the range of a double. -/
def gridExponents : List Int := (List.range 640).map fun (n : Nat) => 310 - (n : Int)

/-- The point on the coarsest grid that has one in the interval. -/
def shortest (i : RoundingInterval) : Decimal :=
  (gridExponents.findSome? i.gridPoint?).getD ⟨0, 0⟩

end RoundingInterval

namespace Decimal

/-- Power of ten of the first digit. -/
def magnitude (d : Decimal) : Int := (toString d.digits).length - 1 + d.exponent

def zeros (n : Nat) : String := String.ofList (List.replicate n '0')

/-- The digits with a point between them, and at least one digit on either side. -/
def positional (d : Decimal) : String :=
  let digits := toString d.digits
  if 0 ≤ d.exponent then digits ++ zeros d.exponent.toNat ++ ".0"
  else
    let places := (-d.exponent).toNat
    let padded := zeros (places + 1 - digits.length) ++ digits
    let whole := padded.length - places
    String.ofList (padded.toList.take whole) ++ "." ++ String.ofList (padded.toList.drop whole)

/-- One digit before the point, and the power of ten after an `e`. -/
def scientific (d : Decimal) : String :=
  match (toString d.digits).toList with
  | [] => ""
  | [c] => String.ofList [c] ++ s!"e{d.magnitude}"
  | c :: rest => String.ofList (c :: '.' :: rest) ++ s!"e{d.magnitude}"

/-- Positional from `1e-4` up to, but not including, `1e16`. -/
def text (d : Decimal) : String :=
  if -4 ≤ d.magnitude ∧ d.magnitude < 16 then d.positional else d.scientific

end Decimal

/-- The text of a float: shortest digits, `0.0` for zero, the sign kept except on a NaN. -/
def FloatFormat.text (f : FloatFormat) (word : UInt64) : String :=
  let sign := if f.isNegative word then "-" else ""
  if f.isNaN word then "NaN"
  else if f.isInfinite word then sign ++ "inf"
  else if f.isZero word then sign ++ "0.0"
  else sign ++ (RoundingInterval.ofFloat f word).shortest.text

end ScalarLowering
