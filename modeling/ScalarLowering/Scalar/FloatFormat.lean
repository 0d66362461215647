import ScalarLowering.Scalar.Kind

/-! Binary floating point on bit patterns: the fields of a word, the classes of values,
and equality. A word may be wider than the format; the low bits count. -/

namespace ScalarLowering

/-- Widths of the exponent and fraction fields; the sign is the bit above them. -/
structure FloatFormat where
  exponentBits : Nat
  fractionBits : Nat
  deriving DecidableEq

namespace FloatFormat

def single : FloatFormat := ⟨8, 23⟩

def double : FloatFormat := ⟨11, 52⟩

def width (f : FloatFormat) : Nat := 1 + f.exponentBits + f.fractionBits

def fraction (f : FloatFormat) (word : UInt64) : Nat := word.toNat % Nat.pow 2 f.fractionBits

def exponent (f : FloatFormat) (word : UInt64) : Nat :=
  word.toNat / Nat.pow 2 f.fractionBits % Nat.pow 2 f.exponentBits

def isNegative (f : FloatFormat) (word : UInt64) : Bool :=
  word.toNat.testBit (f.exponentBits + f.fractionBits)

/-- The exponent field that marks infinities and NaNs. -/
def topExponent (f : FloatFormat) : Nat := Nat.pow 2 f.exponentBits - 1

def isNaN (f : FloatFormat) (word : UInt64) : Bool :=
  f.exponent word = f.topExponent && f.fraction word ≠ 0

def isInfinite (f : FloatFormat) (word : UInt64) : Bool :=
  f.exponent word = f.topExponent && f.fraction word = 0

def isZero (f : FloatFormat) (word : UInt64) : Bool :=
  f.exponent word = 0 && f.fraction word = 0

/-- Equality of the values: a NaN equals nothing, and the two zeros are equal. -/
def equal (f : FloatFormat) (a b : UInt64) : Bool :=
  !f.isNaN a && !f.isNaN b &&
    (f.isZero a && f.isZero b || a.toNat % Nat.pow 2 f.width = b.toNat % Nat.pow 2 f.width)

/-- A finite value's magnitude is `significand * 2 ^ scale`. -/
def significand (f : FloatFormat) (word : UInt64) : Nat :=
  if f.exponent word = 0 then f.fraction word else Nat.pow 2 f.fractionBits + f.fraction word

def scale (f : FloatFormat) (word : UInt64) : Int :=
  (max (f.exponent word) 1 : Nat) - (Nat.pow 2 (f.exponentBits - 1) - 1 : Nat) -
    (f.fractionBits : Int)

end FloatFormat

namespace Scalar

/-- The format of a float kind. -/
def format? : Scalar → Option FloatFormat
  | .f32 => some .single
  | .f64 => some .double
  | _ => none

/-- Equality of two payloads: floats by value, all else by bits. -/
def equal (kind : Option Scalar) (a b : UInt64) : Bool :=
  match kind.bind format? with
  | some f => f.equal a b
  | none => a = b

/-- Like `equal`, except that two NaNs are equal. -/
def same (kind : Option Scalar) (a b : UInt64) : Bool :=
  match kind.bind format? with
  | some f => f.equal a b || f.isNaN a && f.isNaN b
  | none => a = b

end Scalar
end ScalarLowering
