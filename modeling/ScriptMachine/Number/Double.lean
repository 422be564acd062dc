import ScriptMachine.Number.Word

/-!
# Binary64 numbers

A `Double` is its 64 bits: a sign, eleven exponent bits and fifty-two fraction bits. Every
operation reads the number as the exact value `significand * 2 ^ unitExponent`, so nothing here
leaves integer arithmetic.

`Double.order` is the total order of the format: negative NaNs first, then the negative numbers,
`-0`, `0`, the positive numbers and the positive NaNs. It is the order of the integers
`Double.rank`, which makes it a linear order on bit patterns.
-/

set_option autoImplicit false

namespace ScriptMachine

/-- A binary64 number, given by its bits. -/
structure Double where
  bits : UInt64
deriving DecidableEq, Repr, Inhabited

namespace Double

def magnitude (x : Double) : Nat := x.bits.toNat % 2 ^ 63

def negative (x : Double) : Bool := decide (2 ^ 63 ≤ x.bits.toNat)

def ofMagnitude (negative : Bool) (magnitude : Nat) : Double :=
  ⟨UInt64.ofNat (magnitude % 2 ^ 63 + if negative then 2 ^ 63 else 0)⟩

def infiniteMagnitude : Nat := 2047 * 2 ^ 52

def zero (negative : Bool) : Double := ofMagnitude negative 0

def infinity (negative : Bool) : Double := ofMagnitude negative infiniteMagnitude

/-- What an operation without a meaningful result answers. -/
def undefined : Double := ofMagnitude true (infiniteMagnitude + 2 ^ 51)

def one : Double := ofMagnitude false (1023 * 2 ^ 52)

def isFinite (x : Double) : Bool := decide (x.magnitude < infiniteMagnitude)

def isInfinite (x : Double) : Bool := decide (x.magnitude = infiniteMagnitude)

def isNaN (x : Double) : Bool := decide (infiniteMagnitude < x.magnitude)

def isZero (x : Double) : Bool := decide (x.magnitude = 0)

def exponentField (x : Double) : Nat := x.magnitude / 2 ^ 52

def significand (x : Double) : Nat :=
  if x.exponentField = 0 then x.magnitude % 2 ^ 52 else x.magnitude % 2 ^ 52 + 2 ^ 52

def unitExponent (x : Double) : Int :=
  if x.exponentField = 0 then -1074 else (x.exponentField : Int) - 1075

def signedSignificand (x : Double) : Int :=
  if x.negative then -(x.significand : Int) else x.significand

/-- The sign bit flipped, also of a zero or a NaN. -/
def negate (x : Double) : Double := ofMagnitude (!x.negative) x.magnitude

def rank (x : Double) : Int :=
  if x.negative then -(x.magnitude : Int) - 1 else x.magnitude

/-- Total order on bit patterns. -/
def order (x y : Double) : Ordering := compare x.rank y.rank

/-- Numeric equality: a NaN differs from everything and the two zeros are equal. -/
def numericEq (x y : Double) : Bool :=
  !x.isNaN && !y.isNaN && (x == y || (x.isZero && y.isZero))

/-- A NaN with its quiet bit set, as an operation hands it on. -/
def quieted (x : Double) : Double :=
  ofMagnitude x.negative
    (if x.magnitude / 2 ^ 51 % 2 = 0 then x.magnitude + 2 ^ 51 else x.magnitude)

def integer? (x : Double) : Option Int :=
  if !x.isFinite then none
  else if 0 ≤ x.unitExponent then
    some (x.signedSignificand * 2 ^ x.unitExponent.toNat)
  else
    let unit : Nat := 2 ^ (-x.unitExponent).toNat
    if x.significand % unit = 0 then
      let whole : Int := (x.significand / unit : Nat)
      some (if x.negative then -whole else whole)
    else none

end Double

end ScriptMachine
