import ScriptMachine.Number.Double

/-!
# Decimal text of doubles

`Decimal.shortest` finds the fewest digits that read back as a given number and, among the decimals
of that length, the nearest one; `Tie` says which of two equally near ones. `NumberStyle` says how
such digits are laid out; the three notations of the program are values of it.
-/

set_option autoImplicit false

namespace ScriptMachine

structure Decimal where
  digits : Nat
  exponent : Int
deriving DecidableEq, Repr, Inhabited

namespace Decimal

def digitChars (n : Nat) : List Char := Nat.toDigits 10 n

def shifted (num den : Nat) (shift : Int) : Nat × Nat :=
  if 0 ≤ shift then (num * 10 ^ shift.toNat, den) else (num, den * 10 ^ (-shift).toNat)

/-- Largest `e` with `10 ^ e ≤ num / den`, found from the binary lengths and at most one
correction in each direction. -/
def leadingExponent (num den : Nat) : Int :=
  let reaches (e : Int) : Bool :=
    let (n, d) := shifted num den (-e)
    decide (d ≤ n)
  let guess : Int := ((num.log2 : Int) - den.log2) * 1233 / 4096
  if reaches (guess + 1) then guess + 1
  else if reaches guess then guess
  else guess - 1

inductive Tie where
  | even
  | up
deriving DecidableEq, Repr, Inhabited

def Tie.choose : Tie → Nat → Nat
  | .even, below => if below % 2 = 0 then below else below + 1
  | .up, below => below + 1

/-- An open or closed interval of positive rationals over one denominator, with a point in it. -/
structure Window where
  low : Nat
  point : Nat
  high : Nat
  den : Nat
  closed : Bool

def Window.contains (w : Window) (digits : Nat) (exponent : Int) : Bool :=
  let (n, d) := shifted digits 1 exponent
  if w.closed then decide (w.low * d ≤ n * w.den ∧ n * w.den ≤ w.high * d)
  else decide (w.low * d < n * w.den ∧ n * w.den < w.high * d)

/-- On the grid of multiples of `10 ^ exponent`, the neighbour of the point that lies in the window.
Of two the nearer one is taken. -/
def Window.onGrid (tie : Tie) (w : Window) (exponent : Int) : Option Nat :=
  let (n, d) := shifted w.point w.den (-exponent)
  let below := n / d
  let rest := n % d
  let above := below + 1
  match w.contains below exponent, w.contains above exponent with
  | true, true =>
    if 2 * rest < d then some below
    else if d < 2 * rest then some above
    else some (tie.choose below)
  | true, false => some below
  | false, true => some above
  | false, false => none

def Window.search (tie : Tie) (w : Window) (exponent : Int) : Nat → Decimal
  | 0 => ⟨w.point / w.den, 0⟩
  | remaining + 1 =>
    match w.onGrid tie exponent with
    | some digits => ⟨digits, exponent⟩
    | none => w.search tie (exponent - 1) remaining

/-- The reals that round to a positive finite number: up to half a unit above, and half a unit
below, or a quarter where the number is the least of its binade. The ends belong to it if the
significand is even. -/
def window (x : Double) : Window :=
  let m := x.significand
  let leastOfBinade := decide (m = 2 ^ 52 ∧ 1 < x.exponentField)
  let low := if leastOfBinade then 4 * m - 1 else 4 * m - 2
  let closed := m % 2 = 0
  if 2 ≤ x.unitExponent then
    let unit := 2 ^ (x.unitExponent - 2).toNat
    ⟨low * unit, 4 * m * unit, (4 * m + 2) * unit, 1, closed⟩
  else
    ⟨low, 4 * m, 4 * m + 2, 2 ^ (2 - x.unitExponent).toNat, closed⟩

def trimmed (d : Decimal) : Nat → Decimal
  | 0 => d
  | count + 1 =>
    if d.digits % 10 = 0 ∧ d.digits ≠ 0 then trimmed ⟨d.digits / 10, d.exponent + 1⟩ count else d

/-- Fewest digits that read back as the magnitude of a finite number. Seventeen always do. -/
def shortest (tie : Tie) (x : Double) : Decimal :=
  if x.isZero then ⟨0, 0⟩
  else
    let w := window x
    (w.search tie (leadingExponent w.point w.den) 18).trimmed 20

end Decimal

structure NumberStyle where
  /-- Exponents of the leading digit that are written positionally; `none` for all. -/
  positional : Option (Int × Int)
  fraction : Bool
  plus : Bool
  nan : String
  infinite : String
  /-- Which of two shortest decimals is written if both are equally near. -/
  tie : Decimal.Tie := .even

namespace NumberStyle

def positionalText (fraction : Bool) (digits : List Char) (exponent : Int) : String :=
  let tail := if fraction then ".0" else ""
  if 0 ≤ exponent then
    String.ofList (digits ++ List.replicate exponent.toNat '0') ++ tail
  else
    let places := (-exponent).toNat
    if places < digits.length then
      let whole := digits.length - places
      String.ofList (digits.take whole) ++ "." ++ String.ofList (digits.drop whole)
    else
      "0." ++ String.ofList (List.replicate (places - digits.length) '0' ++ digits)

def scientificText (plus : Bool) (digits : List Char) (leading : Int) : String :=
  let sign := if plus && decide (0 ≤ leading) then "+" else ""
  let mantissa :=
    match digits with
    | [] => "0"
    | [d] => d.toString
    | d :: rest => d.toString ++ "." ++ String.ofList rest
  mantissa ++ "e" ++ sign ++ toString leading

def finiteText (format : NumberStyle) (x : Double) : String :=
  let decimal := Decimal.shortest format.tie x
  let digits := Decimal.digitChars decimal.digits
  let leading : Int := decimal.exponent + digits.length - 1
  let inRange : Bool :=
    match format.positional with
    | none => true
    | some (low, high) => x.isZero || decide (low ≤ leading ∧ leading ≤ high)
  if inRange then positionalText format.fraction digits decimal.exponent
  else scientificText format.plus digits leading

def text (format : NumberStyle) (x : Double) : String :=
  if x.isNaN then format.nan
  else
    let sign := if x.negative then "-" else ""
    sign ++ if x.isFinite then format.finiteText x else format.infinite

end NumberStyle

namespace Double

def shown : NumberStyle := ⟨some (-5, 15), true, false, "NaN", "inf", .even⟩

def written : NumberStyle := ⟨some (-5, 15), true, true, "null", "null", .even⟩

/-- All digits, without an exponent or an idle fraction. A tie goes up. -/
def spelledOut : NumberStyle := ⟨none, false, false, "NaN", "inf", .up⟩

def text (x : Double) : String := shown.text x

end Double

end ScriptMachine
