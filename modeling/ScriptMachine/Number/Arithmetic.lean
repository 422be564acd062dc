import ScriptMachine.Number.Rounding

/-!
# Double arithmetic

Each operation computes its exact result in integers and rounds it once. A NaN operand is handed on
(the left one first), and an operation without a meaningful result answers `Double.undefined`.
-/

set_option autoImplicit false

namespace ScriptMachine.Double

def inUnits (m : Int) (unit common : Int) : Int := m * 2 ^ (unit - common).toNat

def onNumbers (x y : Double) (otherwise : Double) : Double :=
  if x.isNaN then x.quieted else if y.isNaN then y.quieted else otherwise

/-- Sum of two finite numbers. An exact zero is `-0` only if both operands are negative. -/
def addFinite (x y : Double) : Double :=
  let unit := min x.unitExponent y.unitExponent
  let sum := inUnits x.signedSignificand x.unitExponent unit
    + inUnits y.signedSignificand y.unitExponent unit
  if sum = 0 then zero (x.negative && y.negative)
  else ofScaled (decide (sum < 0)) sum.natAbs unit

def add (x y : Double) : Double :=
  onNumbers x y <|
    if x.isInfinite then
      if y.isInfinite && x.negative != y.negative then undefined else x
    else if y.isInfinite then y
    else addFinite x y

def sub (x y : Double) : Double := if y.isNaN then add x y else add x y.negate

def mul (x y : Double) : Double :=
  let sign := x.negative != y.negative
  onNumbers x y <|
    if x.isInfinite || y.isInfinite then
      if x.isZero || y.isZero then undefined else infinity sign
    else ofScaled sign (x.significand * y.significand) (x.unitExponent + y.unitExponent)

def div (x y : Double) : Double :=
  let sign := x.negative != y.negative
  onNumbers x y <|
    if x.isInfinite then
      if y.isInfinite then undefined else infinity sign
    else if y.isInfinite then zero sign
    else if y.isZero then
      if x.isZero then undefined else infinity sign
    else
      let unit := min x.unitExponent y.unitExponent
      ofRatio sign (inUnits x.significand x.unitExponent unit).natAbs
        (inUnits y.significand y.unitExponent unit).natAbs

/-- Remainder of the division truncated toward zero: exact, with the sign of the dividend. -/
def rem (x y : Double) : Double :=
  onNumbers x y <|
    if x.isInfinite || y.isZero then undefined
    else if y.isInfinite || x.isZero then x
    else
      let unit := min x.unitExponent y.unitExponent
      let rest := (inUnits x.significand x.unitExponent unit).natAbs
        % (inUnits y.significand y.unitExponent unit).natAbs
      ofScaled x.negative rest unit

end ScriptMachine.Double
