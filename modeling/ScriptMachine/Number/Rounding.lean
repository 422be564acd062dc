import ScriptMachine.Number.Double

/-!
# Rounding to the nearest double

`Double.ofRatio` rounds an exact non-negative ratio, with a sign, to the nearest double; a tie goes
to the even significand and a result past the largest finite number is infinite. Arithmetic,
conversion from integers and the reading of decimals all round through it, once.
-/

set_option autoImplicit false

namespace ScriptMachine

/-- Quotient rounded to the nearest integer, a half going to the even neighbour. -/
def roundQuotient (num den : Nat) : Nat :=
  let quotient := num / den
  let rest := num % den
  if 2 * rest < den then quotient
  else if den < 2 * rest then quotient + 1
  else if quotient % 2 = 0 then quotient else quotient + 1

namespace Double

def binaryExponent (num den : Nat) : Int :=
  let guess : Int := (num.log2 : Int) - den.log2
  let reached : Bool :=
    if 0 ≤ guess then decide (den * 2 ^ guess.toNat ≤ num)
    else decide (den ≤ num * 2 ^ (-guess).toNat)
  if reached then guess else guess - 1

def scaledQuotient (num den : Nat) (unit : Int) : Nat :=
  if 0 ≤ unit then roundQuotient num (den * 2 ^ unit.toNat)
  else roundQuotient (num * 2 ^ (-unit).toNat) den

/-- Magnitude of the double nearest to `num / den`.

With a last place of `2 ^ unit` the bits are `(unit + 1074) * 2 ^ 52` plus the rounded significand:
the hidden bit raises the exponent field by one for normal numbers, and a carry out of the
significand raises it once more. -/
def nearestMagnitude (num den : Nat) : Nat :=
  if num = 0 ∨ den = 0 then 0
  else
    let unit := max (binaryExponent num den - 52) (-1074)
    min ((unit + 1074).toNat * 2 ^ 52 + scaledQuotient num den unit) infiniteMagnitude

def ofRatio (negative : Bool) (num den : Nat) : Double :=
  ofMagnitude negative (nearestMagnitude num den)

def ofInt (i : Int) : Double := ofRatio (decide (i < 0)) i.natAbs 1

def ofScaled (negative : Bool) (m : Nat) (unit : Int) : Double :=
  if 0 ≤ unit then ofRatio negative (m * 2 ^ unit.toNat) 1
  else ofRatio negative m (2 ^ (-unit).toNat)

end Double

end ScriptMachine
